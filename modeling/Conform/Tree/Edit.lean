import Conform.Tree.Lineage
import Conform.Tree.Outline
import Conform.Tree.Walk
/-!
# Edits

The operations that change a tree. Each gives the tree it leaves behind and,
beside it, the answer or the failure, so that what a failed edit leaves behind
can be seen. Checks come before changes.
-/

namespace Conform.Tree

universe u

variable {P : Type u}

def rename (tree : Tree P) (id : NodeId) (name : String) : Tree P × Except Failure Unit :=
  if tree.contains id then
    (tree.update id fun node => { node with name? := some name }, .ok ())
  else (tree, .error (.misuse (.unknownNode id)))

/-- Adds a new leaf as the last child of a parent and gives its number. -/
def addChild (tree : Tree P) (parent : NodeId) (name : String) (payload : P) :
    Tree P × Except Failure NodeId :=
  if tree.contains parent then
    let id := tree.bound
    ((tree.push ⟨⟨some name, payload⟩, some parent, []⟩).update parent (·.addChild id), .ok id)
  else (tree, .error (.misuse (.unknownNode parent)))

/-- Cuts the links between a node and its parent. -/
def unlink (tree : Tree P) (id : NodeId) : Tree P :=
  match tree.parent? id with
  | some parent =>
    (tree.update parent (·.dropChild id)).update id fun node => { node with parent? := none }
  | none => tree

/-- Makes a node with all below it the last child of another parent. -/
def moveNode (tree : Tree P) (id parent : NodeId) : Tree P × Except Failure Unit :=
  if id = root then (tree, .error (.misuse .movedRoot))
  else if !tree.contains id then (tree, .error (.misuse (.unknownNode id)))
  else if !tree.contains parent then (tree, .error (.misuse (.unknownNode parent)))
  else if tree.isAbove id parent then (tree, .error (.misuse .movedBelowItself))
  else
    (((tree.unlink id).update parent (·.addChild id)).update id fun node =>
      { node with parent? := some parent }, .ok ())

/-- Moves nodes below a parent one after another, up to the first that cannot be moved. -/
def addChildren (tree : Tree P) (parent : NodeId) : List NodeId → Tree P × Except Failure Unit
  | [] => (tree, .ok ())
  | id :: rest =>
    match tree.moveNode id parent with
    | (moved, .ok ()) => moved.addChildren parent rest
    | (left, .error failure) => (left, .error failure)

/-- Adds a copy of another tree, numbered afresh, as the last child of a parent. -/
def graft (tree : Tree P) (parent : NodeId) (other : Tree P) : Tree P × Except Failure NodeId :=
  if tree.contains parent then
    match other.outline? root with
    | some outline =>
      let (planted, id) := tree.plant (some parent) outline
      (planted.update parent (·.addChild id), .ok id)
    | none => (tree, .error (.misuse .graftWithoutRoot))
  else (tree, .error (.misuse (.unknownNode parent)))

/-- The tree without a node and what is below it. -/
def prune (tree : Tree P) (id : NodeId) : Tree P :=
  let cut := tree.unlink id
  (cut.descendants id).foldl erase cut

/-- Takes a node with all below it out of the tree and gives it as a tree of its own. -/
def detach (tree : Tree P) (id : NodeId) : Tree P × Except Failure (Tree P) :=
  if id = root then (tree, .error (.misuse .detachedRoot))
  else
    match tree.outline? id with
    | some outline => (tree.prune id, .ok (ofOutline outline))
    | none => (tree, .error (.misuse (.unknownNode id)))

/-- Removes every child of this name with all below it, and counts them. -/
def removeChild (tree : Tree P) (parent : NodeId) (name : String) : Tree P × Nat :=
  let doomed := (tree.children parent).filter fun child => tree.name? child == some name
  (doomed.foldl prune tree, doomed.length)

/-- Removes the children that bear the name of another tree's root, then grafts that tree. -/
def replaceChild (tree : Tree P) (parent : NodeId) (other : Tree P) :
    Tree P × Except Failure NodeId :=
  let cleared := match other.name? root with
    | some name => (tree.removeChild parent name).1
    | none => tree
  cleared.graft parent other

end Conform.Tree
