import Conform.Tree.Lineage
/-!
# The check of links

Whether the links of a tree agree: no list of children repeats a number, a node
lists exactly the nodes that name it as their parent, and no way upward comes
back to a node it has passed. A way upward that does not return passes every
slot at most once and ends at the latest with one unknown node behind them.
-/

namespace Conform.Tree

universe u

variable {P : Type u}

/-- What is wrong with a list of children, given those before. -/
def checkChildren (tree : Tree P) (id : NodeId) (seen : List NodeId) :
    List NodeId → Except Corruption Unit
  | [] => .ok ()
  | child :: rest =>
    if seen.contains child then .error .repeatedChild
    else
      match tree.find? child with
      | none => .error .missingChild
      | some node =>
        if node.parent? = some id then tree.checkChildren id (child :: seen) rest
        else .error .foreignChild

def checkNode (tree : Tree P) (id : NodeId) : Except Corruption Unit :=
  match tree.checkChildren id [] (tree.children id) with
  | .error corruption => .error corruption
  | .ok () =>
    match tree.parent? id with
    | none => .ok ()
    | some parent =>
      if (tree.children parent).contains id then .ok () else .error .unlistedNode

/-- Whether the way upward from a node comes back to a node it has passed: only then is it longer
than all slots and one unknown node at its end. -/
def returns (tree : Tree P) (id : NodeId) : Bool :=
  decide (tree.bound + 1 < (tree.climb (tree.bound + 2) id).length)

def ids (tree : Tree P) : List NodeId := (List.range tree.bound).filter tree.contains

def firstCorruption (check : NodeId → Except Corruption Unit) :
    List NodeId → Except Corruption Unit
  | [] => .ok ()
  | id :: rest =>
    match check id with
    | .error corruption => .error corruption
    | .ok () => firstCorruption check rest

/-- Checks the links of every node, then that no way upward returns. -/
def validate (tree : Tree P) : Except Failure Unit :=
  match firstCorruption tree.checkNode tree.ids with
  | .error corruption => .error (.misuse (.brokenTree corruption))
  | .ok () =>
    if tree.ids.any tree.returns then .error (.misuse (.brokenTree .cycle)) else .ok ()

end Conform.Tree
