import Conform.Proofs.Tree.Outlines
import Conform.Proofs.Tree.Removal
/-!
# Detaching and grafting

What a tree says about its nodes after a subtree has left it or another tree
has been planted in it. A node that stays keeps its label. A detached tree has
the outline of the node it was taken from, and a grafted tree spans a forest
of that outline on new numbers.
-/

namespace Conform.Tree

universe u

variable {P : Type u} {tree : Tree P}

def label? (tree : Tree P) (id : NodeId) : Option (Label P) := (tree.find? id).map (·.toLabel)

theorem label?_of_find? {id : NodeId} {node : Node P} (h : tree.find? id = some node) :
    tree.label? id = some node.toLabel := by
  simp [label?, h]

theorem label?_update (tree : Tree P) (id other : NodeId) {change : Node P → Node P}
    (hkeep : ∀ node, (change node).toLabel = node.toLabel) :
    (tree.update id change).label? other = tree.label? other := by
  rw [label?, label?, find?_update]
  by_cases h : other = id
  · subst h
    cases tree.find? other <;> simp [hkeep]
  · rw [if_neg h]

@[simp] theorem label?_unlink (tree : Tree P) (id other : NodeId) :
    (tree.unlink id).label? other = tree.label? other := by
  cases hlink : tree.parent? id with
  | none => rw [unlink_of_parent?_eq_none hlink]
  | some parent =>
    rw [unlink_eq hlink, label?_update, label?_update]
    · intro node
      rfl
    · intro node
      rfl

@[simp] theorem label?_relink (tree : Tree P) (id parent other : NodeId) :
    (tree.relink id parent).label? other = tree.label? other := by
  rw [relink, label?_update, label?_update, label?_unlink]
  · intro node
    rfl
  · intro node
    rfl

theorem find?_relink_of_ne {id parent other : NodeId} (hid : other ≠ id) (hparent : other ≠ parent)
    (hlink : tree.parent? id ≠ some other) :
    (tree.relink id parent).find? other = tree.find? other := by
  rw [relink, find?_update, if_neg hid, find?_update, if_neg hparent,
    find?_unlink_of_ne hid hlink]

theorem bound_foldl_erase (doomed : List NodeId) (tree : Tree P) :
    (doomed.foldl erase tree).bound = tree.bound := by
  induction doomed generalizing tree with
  | nil => rfl
  | cons first rest ih => rw [List.foldl_cons, ih, bound_erase]

@[simp] theorem bound_prune (tree : Tree P) (id : NodeId) : (tree.prune id).bound = tree.bound := by
  rw [prune, bound_foldl_erase, bound_unlink]

theorem bound_foldl_prune (doomed : List NodeId) (tree : Tree P) :
    (doomed.foldl prune tree).bound = tree.bound := by
  induction doomed generalizing tree with
  | nil => rfl
  | cons id rest ih => rw [List.foldl_cons, ih, bound_prune]

theorem bound_removeChild (tree : Tree P) (parent : NodeId) (name : String) :
    (tree.removeChild parent name).1.bound = tree.bound :=
  bound_foldl_prune _ tree

theorem Linked.label?_prune (h : tree.Linked) {id other : NodeId}
    (hid : tree.contains id = true) (hother : ¬tree.isAbove id other = true) :
    (tree.prune id).label? other = tree.label? other := by
  have hstays : other ∉ tree.descendants id := fun hmem =>
    hother ((h.mem_descendants_iff hid other).mp hmem).2
  rw [label?, h.find?_prune hid, if_neg hstays, ← label?, label?_unlink]

theorem Linked.find?_prune_of_not_isAbove (h : tree.Linked) {id other : NodeId}
    (hid : tree.contains id = true) (hother : ¬tree.isAbove id other = true) :
    (tree.prune id).find? other =
      if tree.parent? id = some other then (tree.find? other).map (·.dropChild id)
      else tree.find? other := by
  have hstays : other ∉ tree.descendants id := fun hmem =>
    hother ((h.mem_descendants_iff hid other).mp hmem).2
  have hne : other ≠ id := by
    rintro rfl
    exact hother (h.isAbove_self hid)
  rw [h.find?_prune hid, if_neg hstays]
  split
  · next hlink => rw [unlink_eq hlink, find?_update, if_neg hne, find?_update, if_pos rfl]
  · next hlink => exact find?_unlink_of_ne hne hlink

theorem detach_eq {id : NodeId} (hroot : id ≠ root) {outline : Outline P}
    (houtline : tree.outline? id = some outline) :
    tree.detach id = (tree.prune id, .ok (ofOutline outline)) := by
  rw [detach, if_neg hroot]
  simp only [houtline]

/-! ## Grafted trees -/

section Graft

variable {other : Tree P} {parent : NodeId} {outline : Outline P}

theorem graft_eq_update (hparent : tree.contains parent = true)
    (houtline : other.outline? root = some outline) :
    tree.graft parent other =
      ((plantForest parent (.cons outline.root outline.below .nil) tree).1.update parent
        (·.addChild tree.bound), .ok tree.bound) := by
  rw [graft_eq hparent houtline, ← update_plantForest _ hparent]
  rfl

/-- Of the nodes there were only the parent changes, which gets one more child. -/
theorem find?_graft (hparent : tree.contains parent = true)
    (houtline : other.outline? root = some outline) {id : NodeId} (hid : id < tree.bound) :
    (tree.graft parent other).1.find? id =
      if id = parent then (tree.find? parent).map (·.addChild tree.bound) else tree.find? id := by
  rw [graft_eq_update hparent houtline, find?_update, find?_plantForest _ hid,
    find?_plantForest _ (lt_bound_of_contains hparent)]

theorem contains_graft_of_lt (hparent : tree.contains parent = true)
    (houtline : other.outline? root = some outline) {id : NodeId} (hid : id < tree.bound) :
    (tree.graft parent other).1.contains id = tree.contains id := by
  rw [contains, contains, find?_graft hparent houtline hid]
  by_cases h : id = parent
  · simp [h]
  · rw [if_neg h]

theorem contains_graft (hparent : tree.contains parent = true)
    (houtline : other.outline? root = some outline) {id : NodeId}
    (hid : tree.contains id = true) : (tree.graft parent other).1.contains id = true :=
  (contains_graft_of_lt hparent houtline (lt_bound_of_contains hid)).trans hid

theorem label?_graft (hparent : tree.contains parent = true)
    (houtline : other.outline? root = some outline) {id : NodeId} (hid : id < tree.bound) :
    (tree.graft parent other).1.label? id = tree.label? id := by
  rw [label?, label?, find?_graft hparent houtline hid]
  by_cases h : id = parent
  · subst h
    cases tree.find? id <;> simp [Node.addChild]
  · rw [if_neg h]

theorem parent?_graft (hparent : tree.contains parent = true)
    (houtline : other.outline? root = some outline) {id : NodeId} (hid : id < tree.bound) :
    (tree.graft parent other).1.parent? id = tree.parent? id := by
  rw [parent?, parent?, find?_graft hparent houtline hid]
  by_cases h : id = parent
  · subst h
    cases tree.find? id <;> simp [Node.addChild]
  · rw [if_neg h]

theorem children_graft (hparent : tree.contains parent = true)
    (houtline : other.outline? root = some outline) {id : NodeId} (hid : id < tree.bound) :
    (tree.graft parent other).1.children id =
      tree.children id ++ if id = parent then [tree.bound] else [] := by
  rw [children, find?_graft hparent houtline hid]
  by_cases h : id = parent
  · subst h
    obtain ⟨node, hnode⟩ := contains_iff.mp hparent
    simp [children, hnode, Node.addChild]
  · simp [children, h]

theorem spans_graft (hparent : tree.contains parent = true)
    (houtline : other.outline? root = some outline) :
    ∃ planted, (tree.graft parent other).1.Spans [tree.bound] planted ∧
      planted.map (·.2.toLabel) = .cons outline.root outline.below .nil ∧
      planted.numbers = List.range' tree.bound (outline.below.size + 1) := by
  obtain ⟨planted, hspan, hlabels, hnumbers⟩ :=
    spans_plantForest parent (.cons outline.root outline.below .nil) tree
  refine ⟨planted, ?_, hlabels, hnumbers⟩
  rw [graft_eq_update hparent houtline]
  apply hspan.congr
  intro id hid
  rw [hnumbers, List.mem_range'_1] at hid
  have hne : id ≠ parent :=
    Nat.ne_of_gt (Nat.lt_of_lt_of_le (lt_bound_of_contains hparent) hid.1)
  rw [find?_update, if_neg hne]

theorem label?_graft_bound (hparent : tree.contains parent = true)
    (houtline : other.outline? root = some outline) :
    (tree.graft parent other).1.label? tree.bound = some outline.root := by
  obtain ⟨planted, hspan, hlabels, _⟩ := spans_graft hparent houtline
  cases hspan with
  | cons found _ _ =>
    rw [Forest.map, Forest.cons.injEq] at hlabels
    rw [label?_of_find? found, hlabels.1]

theorem bound_graft (hparent : tree.contains parent = true)
    (houtline : other.outline? root = some outline) :
    (tree.graft parent other).1.bound = tree.bound + (outline.below.size + 1) := by
  rw [graft_eq_update hparent houtline, bound_update, bound_plantForest]
  rfl

end Graft

end Conform.Tree
