import Conform.Tree.Edit
/-!
# Places

Nodes found or made by a path below the root. What is missing on the way is
added with the default payload.
-/

namespace Conform.Tree

universe u

variable {P : Type u} [Inhabited P]

/-- Follows names downward and adds a node for each that is missing. -/
def ensureBelow (tree : Tree P) (id : NodeId) : List String → Tree P × NodeId
  | [] => (tree, id)
  | name :: rest =>
    match tree.childNamed? id name with
    | some child => tree.ensureBelow child rest
    | none =>
      match tree.addChild id name default with
      | (grown, .ok child) => grown.ensureBelow child rest
      | (left, .error _) => (left, id)

/-- The node at a path below the root, added if it is missing. -/
def ensurePath (tree : Tree P) (path : Path) : Tree P × NodeId :=
  tree.ensureBelow root path.segments

/-- Adds a leaf at a path; none for the empty path, where no leaf can be. -/
def put? (tree : Tree P) (path : Path) (payload : P) :
    Option (Tree P × Except Failure NodeId) :=
  match path.parent?, path.last? with
  | some parent, some name =>
    let (grown, id) := tree.ensurePath parent
    some (grown.addChild id name payload)
  | _, _ => none

end Conform.Tree
