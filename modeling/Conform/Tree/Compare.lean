import Conform.Tree.Lineage
import Conform.Tree.Outline
/-!
# Comparison

The first difference between two trees in pre-order, numbers aside. At each
node names are compared first, then payloads, then the numbers of children.
-/

namespace Conform

universe u

/-- In what two nodes differ. -/
inductive Aspect where
  | names
  | payloads
  | childCounts
  deriving DecidableEq, Repr

def Aspect.text : Aspect → String
  | names => "names"
  | payloads => "payloads"
  | childCounts => "child counts"

def Aspect.message (aspect : Aspect) (path : Path) : String :=
  s!"{aspect.text} differ at {path.text}"

/-- The first difference between two rows of trees, at a node of the first row. -/
def Forest.difference? {P : Type u} (agree : P → P → Bool) :
    Forest (NodeId × Node P) → Forest (NodeId × Node P) → Option (Aspect × NodeId)
  | .cons (id, node) below rest, .cons (_, other) otherBelow otherRest =>
    if node.name? != other.name? then some (.names, id)
    else if !agree node.payload other.payload then some (.payloads, id)
    else if node.children.length != other.children.length then some (.childCounts, id)
    else
      match below.difference? agree otherBelow with
      | some found => some found
      | none => rest.difference? agree otherRest
  | _, _ => none

def Tree.difference? {P : Type u} (agree : P → P → Bool) (tree other : Tree P) :
    Option (Aspect × Path) :=
  ((tree.branches [Tree.root]).difference? agree (other.branches [Tree.root])).map
    fun (aspect, id) => (aspect, tree.path id)

end Conform
