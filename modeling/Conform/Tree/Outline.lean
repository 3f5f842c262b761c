import Conform.Tree
/-!
# Outlines

A tree with its numbers left out: labels in their shape. Reading the outline
below a node and planting an outline are the two directions; planting numbers
the new nodes in pre-order.
-/

namespace Conform

universe u

/-- A root with the forest below it. -/
structure Outline (P : Type u) where
  root : Label P
  below : Forest (Label P)
  deriving DecidableEq, Repr, Inhabited

namespace Tree

variable {P : Type u}

/-- The nodes below and including some nodes, within so many steps down and to the right. -/
def forestAt (tree : Tree P) : Nat → List NodeId → Forest (NodeId × Node P)
  | _, [] => .nil
  | 0, _ :: _ => .nil
  | steps + 1, id :: rest =>
    match tree.find? id with
    | some node =>
      .cons (id, node) (tree.forestAt steps node.children) (tree.forestAt steps rest)
    | none => tree.forestAt steps rest

def branches (tree : Tree P) (ids : List NodeId) : Forest (NodeId × Node P) :=
  tree.forestAt tree.bound ids

def labelsBelow (tree : Tree P) (id : NodeId) : Forest (Label P) :=
  (tree.branches (tree.children id)).map (·.2.toLabel)

def outline? (tree : Tree P) (id : NodeId) : Option (Outline P) :=
  (tree.find? id).map fun node => ⟨node.toLabel, tree.labelsBelow id⟩

/-- Adds a forest below a parent, whose list of children is left to the caller. -/
def plantForest (parent : NodeId) : Forest (Label P) → Tree P → Tree P × List NodeId
  | .nil, tree => (tree, [])
  | .cons label below rest, tree =>
    let id := tree.bound
    let (tree, children) := plantForest id below (tree.push ⟨label, some parent, []⟩)
    let (tree, siblings) :=
      plantForest parent rest (tree.update id fun node => { node with children })
    (tree, id :: siblings)

/-- Adds an outline as new nodes and gives the number of its root. -/
def plant (tree : Tree P) (parent? : Option NodeId) (outline : Outline P) : Tree P × NodeId :=
  let id := tree.bound
  let (tree, children) := plantForest id outline.below (tree.push ⟨outline.root, parent?, []⟩)
  (tree.update id fun node => { node with children }, id)

/-- The tree of an outline, numbered in pre-order from zero. -/
def ofOutline (outline : Outline P) : Tree P := (empty.plant none outline).1

end Tree

end Conform
