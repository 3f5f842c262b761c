import Conform.Tree
/-!
# Lineage

The way from a node up to the root, and the paths read off it. The steps are
bounded by the number of slots, which no way along distinct nodes exceeds.
-/

namespace Conform.Tree

universe u

variable {P : Type u}

/-- A node, its parent, and so on for at most this many nodes. -/
def climb (tree : Tree P) : Nat → NodeId → List NodeId
  | 0, _ => []
  | steps + 1, id =>
    id :: match tree.parent? id with
      | some parent => tree.climb steps parent
      | none => []

/-- The node itself and its ancestors, the root last. -/
def lineage (tree : Tree P) (id : NodeId) : List NodeId := tree.climb tree.bound id

def path (tree : Tree P) (id : NodeId) : Path :=
  ⟨((tree.lineage id).filter tree.contains).reverse.map tree.title⟩

/-- The names from an ancestor down to a node, without the ancestor's own. -/
def pathFrom? (tree : Tree P) (ancestor id : NodeId) : Option Path :=
  if (tree.lineage id).contains ancestor then
    some ⟨((tree.lineage id).takeWhile (· != ancestor)).reverse.map tree.title⟩
  else none

/-- The names down to a node from the nearest of it and its ancestors that lies at a path. -/
def pathBelow? (tree : Tree P) (id : NodeId) (path : Path) : Option Path :=
  ((tree.lineage id).find? fun ancestor => tree.path ancestor == path).bind
    fun ancestor => tree.pathFrom? ancestor id

/-- A node and its ancestors with their heights above it, counted down from zero. -/
def ascent (tree : Tree P) (id : NodeId) : List (NodeId × Int) :=
  if tree.contains id then (tree.lineage id).zipIdx.map fun (ancestor, n) => (ancestor, -(n : Int))
  else []

/-- Whether a node is another one or an ancestor of it. -/
def isAbove (tree : Tree P) (ancestor id : NodeId) : Bool :=
  (tree.lineage id).contains ancestor

end Conform.Tree
