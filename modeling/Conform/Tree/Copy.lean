import Conform.Tree.Edit
/-!
# Copies

Copies of a subtree with branches left out and every copied subtree finished
by a function of the caller's. Leaves keep their payload; nodes with children
get the default payload, also when none of their children is copied.
-/

namespace Conform

universe u

/-- What to copy, and what to make of each copied subtree. -/
structure Copier (P : Type u) where
  /-- Nodes that are refused are left out with all below them. -/
  keep : NodeId → Bool
  /-- Called on every copied subtree after those below it. -/
  finish : Tree P → Tree P

namespace Copier

variable {P : Type u}

def plain : Copier P := ⟨fun _ => true, id⟩

/-- Grafts trees below the root from left to right; none when one has no root. -/
def assemble? (tree : Tree P) : List (Tree P) → Option (Tree P)
  | [] => some tree
  | next :: rest =>
    match tree.graft Tree.root next with
    | (grown, .ok _) => assemble? grown rest
    | (_, .error _) => none

variable [Inhabited P]

def label (node : Node P) : Label P :=
  ⟨node.name?, if node.children.isEmpty then node.payload else default⟩

/-- The finished copies of the trees of a forest. -/
def copies (copier : Copier P) : Forest (NodeId × Node P) → List (Tree P)
  | .nil => []
  | .cons (id, node) below rest =>
    if copier.keep id then
      match assemble? (.single (label node)) (copier.copies below) with
      | some tree => copier.finish tree :: copier.copies rest
      | none => copier.copies rest
    else copier.copies rest

/-- The copy of the subtree of a node; none when the node is unknown or refused. -/
def copy? (copier : Copier P) (tree : Tree P) (id : NodeId) : Option (Tree P) :=
  (copier.copies (tree.branches [id])).head?

end Copier

/-- The copy of a whole subtree; a node that is unknown gives one empty node. -/
def Tree.copy {P : Type u} [Inhabited P] (tree : Tree P) (id : NodeId) : Tree P :=
  (Copier.plain.copy? tree id).getD (.single ⟨tree.name? id, default⟩)

/-- The labels of a copied forest: payloads remain at leaves only. -/
def Forest.bare {P : Type u} [Inhabited P] : Forest (Label P) → Forest (Label P)
  | .nil => .nil
  | .cons label below rest =>
    .cons (if below.isEmpty then label else ⟨label.name?, default⟩) below.bare rest.bare

end Conform
