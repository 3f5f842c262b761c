import Conform.Tree
/-!
# Walks

Walks through a subtree in pre-order. A visitor answers at every node whether
to go on below it, to leave out what is below, or to stop. The nodes still to
come are kept as a list; a budget bounds the nodes taken from it, and as many
as the tree has slots are enough for a tree whose links are sound.
-/

namespace Conform

universe u v

/-- The answer of a visitor at one node. -/
inductive Signal where
  /-- Go on with the children. -/
  | proceed
  /-- Leave out what is below and go on to the right. -/
  | skip
  /-- End the walk. -/
  | stop
  deriving DecidableEq, Repr, Inhabited

/-- How a walk ended. -/
inductive Ending where
  /-- Nothing was left to visit. -/
  | finished
  /-- The visitor ended it. -/
  | stopped
  /-- The budget was spent. -/
  | exhausted
  deriving DecidableEq, Repr, Inhabited

namespace Tree

variable {P : Type u} {σ : Type v}

/-- The walk over what is still to come, each node with its depth; unknown nodes are passed over. -/
def walkOver (tree : Tree P) (visitor : NodeId → Nat → σ → Signal × σ) :
    Nat → List (NodeId × Nat) → σ → Ending × σ
  | _, [], state => (.finished, state)
  | 0, _ :: _, state => (.exhausted, state)
  | budget + 1, (id, depth) :: rest, state =>
    if tree.contains id then
      match visitor id depth state with
      | (.proceed, state) =>
        tree.walkOver visitor budget ((tree.children id).map (·, depth + 1) ++ rest) state
      | (.skip, state) => tree.walkOver visitor budget rest state
      | (.stop, state) => (.stopped, state)
    else tree.walkOver visitor budget rest state

def walk (tree : Tree P) (start : NodeId) (visitor : NodeId → Nat → σ → Signal × σ) (state : σ) :
    Ending × σ :=
  tree.walkOver visitor tree.bound [(start, 0)] state

/-- Like `walkOver`, with a visitor that may change the tree; children are read after it answers. -/
def reviseOver (visitor : Tree P → NodeId → Nat → σ → Signal × Tree P × σ) :
    Nat → List (NodeId × Nat) → Tree P → σ → Ending × Tree P × σ
  | _, [], tree, state => (.finished, tree, state)
  | 0, _ :: _, tree, state => (.exhausted, tree, state)
  | budget + 1, (id, depth) :: rest, tree, state =>
    if tree.contains id then
      match visitor tree id depth state with
      | (.proceed, tree, state) =>
        reviseOver visitor budget ((tree.children id).map (·, depth + 1) ++ rest) tree state
      | (.skip, tree, state) => reviseOver visitor budget rest tree state
      | (.stop, tree, state) => (.stopped, tree, state)
    else reviseOver visitor budget rest tree state

/-- A walk whose visitor may change the tree. It need not end when nodes are added, hence the
budget. -/
def revise (tree : Tree P) (budget : Nat) (start : NodeId)
    (visitor : Tree P → NodeId → Nat → σ → Signal × Tree P × σ) (state : σ) :
    Ending × Tree P × σ :=
  reviseOver visitor budget [(start, 0)] tree state

/-- The known nodes among and below some nodes in pre-order, taking at most so many. -/
def gather (tree : Tree P) : Nat → List NodeId → List NodeId
  | _, [] => []
  | 0, _ :: _ => []
  | budget + 1, id :: rest =>
    match tree.find? id with
    | some node => id :: tree.gather budget (node.children ++ rest)
    | none => tree.gather budget rest

/-- A node and all nodes below it in pre-order; nothing for an unknown node. -/
def descendants (tree : Tree P) (start : NodeId) : List NodeId :=
  tree.gather tree.bound [start]

end Tree

end Conform
