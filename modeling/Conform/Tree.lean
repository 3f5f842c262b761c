import Conform.Failure
import Conform.Forest
/-!
# Trees

A tree of named nodes that carry payloads. A node is known by a number that it
keeps for as long as it is in the tree and that no other node ever gets: slots
are only added, and a node that leaves the tree leaves its slot empty. Links
between parent and child are held on both sides.
-/

namespace Conform

universe u

/-- The number of a node, which is the place of its slot. -/
abbrev NodeId := Nat

/-- The name of a node, which only roots may lack, and what it carries. -/
structure Label (P : Type u) where
  name? : Option String
  payload : P
  deriving DecidableEq, Repr, Inhabited

/-- A name for paths: that of an unnamed node is empty. -/
def Label.title {P : Type u} (label : Label P) : String := label.name?.getD ""

/-- A label with the links to the nodes around. -/
structure Node (P : Type u) extends Label P where
  parent? : Option NodeId
  children : List NodeId
  deriving DecidableEq, Repr

namespace Node

variable {P : Type u}

def addChild (node : Node P) (child : NodeId) : Node P :=
  { node with children := node.children ++ [child] }

def dropChild (node : Node P) (child : NodeId) : Node P :=
  { node with children := node.children.filter (· != child) }

end Node

/-- Nodes in numbered slots; an empty slot belonged to a node that has left. -/
structure Tree (P : Type u) where
  slots : Array (Option (Node P))
  deriving DecidableEq, Repr

namespace Tree

variable {P : Type u}

def root : NodeId := 0

def bound (tree : Tree P) : Nat := tree.slots.size

def find? (tree : Tree P) (id : NodeId) : Option (Node P) := tree.slots[id]?.join

def contains (tree : Tree P) (id : NodeId) : Bool := (tree.find? id).isSome

def size (tree : Tree P) : Nat := tree.slots.countP Option.isSome

def isEmpty (tree : Tree P) : Bool := tree.size == 0

def name? (tree : Tree P) (id : NodeId) : Option String := (tree.find? id).bind (·.name?)

def title (tree : Tree P) (id : NodeId) : String := (tree.name? id).getD ""

def parent? (tree : Tree P) (id : NodeId) : Option NodeId := (tree.find? id).bind (·.parent?)

/-- The children of a node in their order; an unknown node has none. -/
def children (tree : Tree P) (id : NodeId) : List NodeId :=
  (tree.find? id).elim [] (·.children)

def isLeaf (tree : Tree P) (id : NodeId) : Bool := (tree.children id).isEmpty

def payload? (tree : Tree P) (id : NodeId) : Option P := (tree.find? id).map (·.payload)

/-- The first child with this name. -/
def childNamed? (tree : Tree P) (id : NodeId) (name : String) : Option NodeId :=
  (tree.children id).find? fun child => tree.name? child == some name

/-- Follows names downward, at each step to the first child of that name. -/
def follow? (tree : Tree P) (id : NodeId) : List String → Option NodeId
  | [] => some id
  | name :: rest =>
    match tree.childNamed? id name with
    | some child => tree.follow? child rest
    | none => none

/-- The node at a path below a start; the empty path leads to the start itself. -/
def resolve? (tree : Tree P) (start : NodeId) (path : Path) : Option NodeId :=
  if tree.contains start then tree.follow? start path.segments else none

/-- The payload of the node at a path below the root. -/
def payloadAt? (tree : Tree P) (path : Path) : Option P :=
  (tree.resolve? root path).bind tree.payload?

/-! ## Single slots -/

def empty : Tree P := ⟨#[]⟩

def single (label : Label P) : Tree P := ⟨#[some ⟨label, none, []⟩]⟩

def push (tree : Tree P) (node : Node P) : Tree P := ⟨tree.slots.push (some node)⟩

/-- Changes the node with this number; nothing happens when it is unknown. -/
def update (tree : Tree P) (id : NodeId) (change : Node P → Node P) : Tree P :=
  match tree.find? id with
  | some node => ⟨tree.slots.setIfInBounds id (some (change node))⟩
  | none => tree

/-- Changes the payload of a node; nothing happens when the node is unknown. -/
def updatePayload (tree : Tree P) (id : NodeId) (change : P → P) : Tree P :=
  tree.update id fun node => { node with payload := change node.payload }

def erase (tree : Tree P) (id : NodeId) : Tree P := ⟨tree.slots.setIfInBounds id none⟩

theorem lt_bound_of_find? {tree : Tree P} {id : NodeId} {node : Node P}
    (h : tree.find? id = some node) : id < tree.bound := by
  apply Nat.lt_of_not_le
  intro hle
  have hnone : tree.slots[id]? = none := Array.getElem?_eq_none hle
  simp [find?, hnone] at h

@[simp] theorem bound_push (tree : Tree P) (node : Node P) :
    (tree.push node).bound = tree.bound + 1 := by
  simp [push, bound]

@[simp] theorem bound_update (tree : Tree P) (id : NodeId) (change : Node P → Node P) :
    (tree.update id change).bound = tree.bound := by
  unfold update
  split <;> simp [bound]

@[simp] theorem bound_erase (tree : Tree P) (id : NodeId) : (tree.erase id).bound = tree.bound := by
  simp [erase, bound]

theorem find?_push (tree : Tree P) (node : Node P) (id : NodeId) :
    (tree.push node).find? id = if id = tree.bound then some node else tree.find? id := by
  by_cases h : id = tree.bound
  · subst h
    simp [find?, push, bound]
  · have hne : id ≠ tree.slots.size := h
    simp [find?, push, h, Array.getElem?_push, hne]

theorem find?_erase (tree : Tree P) (id other : NodeId) :
    (tree.erase id).find? other = if other = id then none else tree.find? other := by
  by_cases h : other = id
  · subst h
    simp only [find?, erase, if_true]
    rw [Array.getElem?_setIfInBounds_self]
    split <;> rfl
  · have hne : id ≠ other := fun e => h e.symm
    simp [find?, erase, h, Array.getElem?_setIfInBounds_ne hne]

theorem find?_update (tree : Tree P) (id other : NodeId) (change : Node P → Node P) :
    (tree.update id change).find? other =
      if other = id then (tree.find? id).map change else tree.find? other := by
  cases hfind : tree.find? id with
  | none =>
    by_cases h : other = id
    · subst h
      simp [update, hfind]
    · simp [update, hfind, h]
  | some node =>
    have hlt : id < tree.slots.size := lt_bound_of_find? hfind
    by_cases h : other = id
    · subst h
      simp only [update, hfind]
      simp [find?, hlt]
    · have hne : id ≠ other := fun e => h e.symm
      simp only [update, hfind]
      simp [find?, h, Array.getElem?_setIfInBounds_ne hne]

end Tree

end Conform
