import Conform.Tree.Edit
/-!
# Lookups after edits of single slots

What a tree says about a node after one slot has been filled, changed or
emptied. Everything a node is asked for is read off `find?`.
-/

namespace Conform.Tree

universe u

variable {P : Type u}

theorem contains_iff {tree : Tree P} {id : NodeId} :
    tree.contains id = true ↔ ∃ node, tree.find? id = some node := by
  rw [contains, Option.isSome_iff_exists]

theorem payload?_eq_some_iff {tree : Tree P} {id : NodeId} {payload : P} :
    tree.payload? id = some payload ↔
      ∃ node, tree.find? id = some node ∧ node.payload = payload := by
  rw [payload?, Option.map_eq_some_iff]

theorem contains_iff_payload? {tree : Tree P} {id : NodeId} :
    tree.contains id = true ↔ ∃ payload, tree.payload? id = some payload := by
  rw [contains, payload?, ← Option.isSome_iff_exists, Option.isSome_map]

theorem lt_bound_of_contains {tree : Tree P} {id : NodeId} (h : tree.contains id = true) :
    id < tree.bound := by
  obtain ⟨node, hnode⟩ := contains_iff.mp h
  exact lt_bound_of_find? hnode

theorem not_contains_of_mem_range' {tree : Tree P} {id count : Nat}
    (h : id ∈ List.range' tree.bound count) : ¬tree.contains id = true := by
  intro hheld
  rw [List.mem_range'_1] at h
  exact Nat.not_lt.mpr h.1 (lt_bound_of_contains hheld)

theorem find?_eq_none_of_le {tree : Tree P} {id : NodeId} (h : tree.bound ≤ id) :
    tree.find? id = none := by
  cases hfind : tree.find? id with
  | none => rfl
  | some node => exact absurd (lt_bound_of_find? hfind) (Nat.not_lt.mpr h)

theorem children_of_find? {tree : Tree P} {id : NodeId} {node : Node P}
    (h : tree.find? id = some node) : tree.children id = node.children := by
  simp only [children, h, Option.elim_some]

theorem name?_of_find? {tree : Tree P} {id : NodeId} {node : Node P}
    (h : tree.find? id = some node) : tree.name? id = node.name? := by
  rw [name?, h, Option.bind_some]

theorem title_of_find? {tree : Tree P} {id : NodeId} {node : Node P}
    (h : tree.find? id = some node) : tree.title id = node.title := by
  rw [title, name?_of_find? h, Label.title]

theorem payload?_of_find? {tree : Tree P} {id : NodeId} {node : Node P}
    (h : tree.find? id = some node) : tree.payload? id = some node.payload := by
  rw [payload?, h, Option.map_some]

theorem contains_of_parent? {tree : Tree P} {id parent : NodeId}
    (h : tree.parent? id = some parent) : tree.contains id = true := by
  obtain ⟨node, hnode, -⟩ := Option.bind_eq_some_iff.mp h
  exact contains_iff.mpr ⟨node, hnode⟩

theorem parent?_of_not_contains {tree : Tree P} {id : NodeId}
    (hid : ¬tree.contains id = true) : tree.parent? id = none := by
  cases hlink : tree.parent? id with
  | none => rfl
  | some parent => exact absurd (contains_of_parent? hlink) hid

theorem contains_of_mem_children {tree : Tree P} {id child : NodeId}
    (h : child ∈ tree.children id) : tree.contains id = true := by
  cases hfind : tree.find? id with
  | none => simp [children, hfind] at h
  | some node => exact contains_iff.mpr ⟨node, hfind⟩

theorem children_of_not_contains {tree : Tree P} {id : NodeId} (h : ¬tree.contains id = true) :
    tree.children id = [] :=
  List.eq_nil_iff_forall_not_mem.mpr fun _ hchild => h (contains_of_mem_children hchild)

theorem filter_not_mem_cons (ids : List NodeId) (id : NodeId) (rest : List NodeId) :
    ids.filter (· ∉ id :: rest) = (ids.filter (· != id)).filter (· ∉ rest) := by
  rw [List.filter_filter]
  apply List.filter_congr
  intro other _
  by_cases heq : other = id <;> simp [heq]

/-! ## A changed node -/

@[simp] theorem contains_update (tree : Tree P) (id other : NodeId) (change : Node P → Node P) :
    (tree.update id change).contains other = tree.contains other := by
  rw [contains, contains, find?_update]
  split
  · next h => rw [h, Option.isSome_map]
  · rfl

theorem parent?_update (tree : Tree P) (id other : NodeId) (change : Node P → Node P)
    (hkeep : ∀ node, (change node).parent? = node.parent?) :
    (tree.update id change).parent? other = tree.parent? other := by
  rw [parent?, parent?, find?_update]
  split
  · next h =>
    subst h
    cases tree.find? other with
    | none => rfl
    | some node => exact hkeep node
  · rfl

theorem children_update (tree : Tree P) (id other : NodeId) (change : Node P → Node P)
    (hkeep : ∀ node, (change node).children = node.children) :
    (tree.update id change).children other = tree.children other := by
  rw [children, children, find?_update]
  split
  · next h =>
    subst h
    cases tree.find? other with
    | none => rfl
    | some node => exact hkeep node
  · rfl

@[simp] theorem parent?_update_addChild (tree : Tree P) (id child other : NodeId) :
    (tree.update id (·.addChild child)).parent? other = tree.parent? other :=
  tree.parent?_update id other _ fun _ => rfl

theorem children_update_addChild {tree : Tree P} {id : NodeId} (h : tree.contains id = true)
    (child other : NodeId) :
    (tree.update id (·.addChild child)).children other =
      if other = id then tree.children id ++ [child] else tree.children other := by
  obtain ⟨node, hnode⟩ := contains_iff.mp h
  rw [children, find?_update]
  split
  · rw [children_of_find? hnode, hnode]
    rfl
  · rfl

@[simp] theorem parent?_update_dropChild (tree : Tree P) (id child other : NodeId) :
    (tree.update id (·.dropChild child)).parent? other = tree.parent? other :=
  tree.parent?_update id other _ fun _ => rfl

theorem children_update_dropChild (tree : Tree P) (id child other : NodeId) :
    (tree.update id (·.dropChild child)).children other =
      if other = id then (tree.children id).filter (· != child) else tree.children other := by
  rw [children, find?_update]
  split
  · cases hfind : tree.find? id with
    | none => simp [children, hfind]
    | some node => simp [children, hfind, Node.dropChild]
  · rfl

theorem parent?_update_parent {tree : Tree P} {id : NodeId} (h : tree.contains id = true)
    (parent? : Option NodeId) (other : NodeId) :
    (tree.update id fun node => { node with parent? }).parent? other =
      if other = id then parent? else tree.parent? other := by
  obtain ⟨node, hnode⟩ := contains_iff.mp h
  rw [Tree.parent?, find?_update]
  split
  · rw [hnode]
    rfl
  · rfl

@[simp] theorem children_update_parent (tree : Tree P) (id other : NodeId)
    (parent? : Option NodeId) :
    (tree.update id fun node => { node with parent? }).children other = tree.children other :=
  tree.children_update id other _ fun _ => rfl

/-! ## A new node -/

theorem contains_push (tree : Tree P) (node : Node P) (id : NodeId) :
    (tree.push node).contains id = true ↔ id = tree.bound ∨ tree.contains id = true := by
  rw [contains, find?_push]
  split
  · next h => simp [h]
  · next h => simp [contains, h]

theorem parent?_push (tree : Tree P) (node : Node P) (id : NodeId) :
    (tree.push node).parent? id = if id = tree.bound then node.parent? else tree.parent? id := by
  rw [parent?, find?_push]
  split <;> rfl

theorem children_push (tree : Tree P) (node : Node P) (id : NodeId) :
    (tree.push node).children id = if id = tree.bound then node.children else tree.children id := by
  rw [children, find?_push]
  split <;> rfl

/-! ## Emptied slots -/

theorem find?_foldl_erase (doomed : List NodeId) (tree : Tree P) (id : NodeId) :
    (doomed.foldl erase tree).find? id = if id ∈ doomed then none else tree.find? id := by
  induction doomed generalizing tree with
  | nil => simp
  | cons first rest ih =>
    rw [List.foldl_cons, ih, find?_erase]
    by_cases hrest : id ∈ rest
    · simp [hrest]
    · by_cases hfirst : id = first
      · simp [hfirst]
      · simp [hrest, hfirst]

end Conform.Tree
