import Conform.Proofs.Tree.Branches
import Conform.Tree.Edit
/-!
# Cutting, moving and removing

What is left of the links when a node is cut from its parent. A moved node is
linked again elsewhere, a removed one takes everything below it along.
-/

namespace Conform.Tree

universe u

variable {P : Type u} {tree : Tree P}

theorem unlink_eq {id parent : NodeId} (hlink : tree.parent? id = some parent) :
    tree.unlink id = (tree.update parent (·.dropChild id)).update id fun node =>
      { node with parent? := none } := by
  simp only [unlink, hlink]

theorem unlink_of_parent?_eq_none {id : NodeId} (hlink : tree.parent? id = none) :
    tree.unlink id = tree := by
  simp only [unlink, hlink]

@[simp] theorem bound_unlink (tree : Tree P) (id : NodeId) : (tree.unlink id).bound = tree.bound := by
  cases hlink : tree.parent? id with
  | none => rw [unlink_of_parent?_eq_none hlink]
  | some parent => rw [unlink_eq hlink, bound_update, bound_update]

@[simp] theorem contains_unlink (tree : Tree P) (id other : NodeId) :
    (tree.unlink id).contains other = tree.contains other := by
  cases hlink : tree.parent? id with
  | none => rw [unlink_of_parent?_eq_none hlink]
  | some parent => rw [unlink_eq hlink, contains_update, contains_update]

theorem parent?_unlink (tree : Tree P) (id other : NodeId) :
    (tree.unlink id).parent? other = if other = id then none else tree.parent? other := by
  cases hlink : tree.parent? id with
  | none =>
    rw [unlink_of_parent?_eq_none hlink]
    split
    · next heq => rw [heq, hlink]
    · rfl
  | some parent =>
    have hid : (tree.update parent (·.dropChild id)).contains id = true := by
      rw [contains_update]
      exact contains_of_parent? hlink
    rw [unlink_eq hlink, parent?_update_parent hid, parent?_update_dropChild]

/-- Only the parent lists the node, so that dropping it there drops it everywhere. -/
theorem Linked.children_unlink (h : tree.Linked) (id other : NodeId) :
    (tree.unlink id).children other = (tree.children other).filter (· != id) := by
  cases hlink : tree.parent? id with
  | none =>
    rw [unlink_of_parent?_eq_none hlink, h.filter_children_of_ne]
    rw [hlink]
    exact (Option.some_ne_none other).symm
  | some parent =>
    rw [unlink_eq hlink, children_update_parent, children_update_dropChild]
    split
    · next heq => rw [heq]
    · next hne =>
      rw [h.filter_children_of_ne]
      rw [hlink, ne_eq, Option.some.injEq]
      exact fun heq => hne heq.symm

theorem find?_unlink_of_ne {id other : NodeId} (hid : other ≠ id)
    (hparent : tree.parent? id ≠ some other) : (tree.unlink id).find? other = tree.find? other := by
  cases hlink : tree.parent? id with
  | none => rw [unlink_of_parent?_eq_none hlink]
  | some parent =>
    have hne : other ≠ parent := by
      intro heq
      exact hparent (by rw [hlink, heq])
    rw [unlink_eq hlink, find?_update, if_neg hid, find?_update, if_neg hne]

/-! ## Moving -/

/-- The tree in which a node has become the last child of another parent. -/
def relink (tree : Tree P) (id parent : NodeId) : Tree P :=
  ((tree.unlink id).update parent (·.addChild id)).update id fun node =>
    { node with parent? := some parent }

/-- When a node may be moved below a parent. -/
structure Movable (tree : Tree P) (id parent : NodeId) : Prop where
  ne_root : id ≠ root
  contains_id : tree.contains id = true
  contains_parent : tree.contains parent = true
  not_isAbove : ¬tree.isAbove id parent = true

theorem moveNode_of_movable {id parent : NodeId} (h : tree.Movable id parent) :
    tree.moveNode id parent = (tree.relink id parent, .ok ()) := by
  rw [moveNode, if_neg h.ne_root, if_neg (by simp [h.contains_id]),
    if_neg (by simp [h.contains_parent]), if_neg h.not_isAbove]
  rfl

theorem moveNode_of_not_movable {id parent : NodeId} (h : ¬tree.Movable id parent) :
    ∃ failure, tree.moveNode id parent = (tree, .error failure) := by
  unfold moveNode
  split
  · exact ⟨_, rfl⟩
  · next hroot =>
    split
    · exact ⟨_, rfl⟩
    · next hid =>
      split
      · exact ⟨_, rfl⟩
      · next hparent =>
        split
        · exact ⟨_, rfl⟩
        · next habove =>
          exact absurd ⟨hroot, by simpa using hid, by simpa using hparent, habove⟩ h

@[simp] theorem contains_relink (tree : Tree P) (id parent other : NodeId) :
    (tree.relink id parent).contains other = tree.contains other := by
  simp [relink]

theorem parent?_relink {id : NodeId} (hid : tree.contains id = true) (parent other : NodeId) :
    (tree.relink id parent).parent? other =
      if other = id then some parent else tree.parent? other := by
  have hid' : ((tree.unlink id).update parent (·.addChild id)).contains id = true := by
    rwa [contains_update, contains_unlink]
  rw [relink, parent?_update_parent hid', parent?_update_addChild, parent?_unlink]
  split <;> rfl

theorem Linked.children_relink (h : tree.Linked) {id parent : NodeId}
    (hparent : tree.contains parent = true) (other : NodeId) :
    (tree.relink id parent).children other =
      (tree.children other).filter (· != id) ++ if other = parent then [id] else [] := by
  have hparent' : (tree.unlink id).contains parent = true := by rwa [contains_unlink]
  rw [relink, children_update_parent, children_update_addChild hparent', h.children_unlink,
    h.children_unlink]
  split
  · next heq => rw [heq]
  · rw [List.append_nil]

theorem Linked.relink (h : tree.Linked) {id parent : NodeId}
    (hmovable : tree.Movable id parent) : (tree.relink id parent).Linked := by
  obtain ⟨hroot, hid, hparent, habove⟩ := hmovable
  have hother : ∀ {other}, tree.contains other = true → ¬tree.isAbove id other = true →
      (tree.relink id parent).Rooted other := by
    intro other hother
    refine h.up_induction (motive := fun other => ¬tree.isAbove id other = true →
      (tree.relink id parent).Rooted other) (fun _ => .root) ?_ hother
    intro other up hlink ih hnot
    rw [h.isAbove_child_iff hlink, not_or] at hnot
    refine .child ?_ (ih hnot.2)
    rw [parent?_relink hid, if_neg fun heq => hnot.1 heq.symm, hlink]
  have hmoved : (tree.relink id parent).Rooted id :=
    .child (by rw [parent?_relink hid, if_pos rfl]) (hother hparent habove)
  refine ⟨?_, ?_, ?_, ?_, ?_⟩
  · rw [contains_relink, h.contains_root]
  · rw [parent?_relink hid, if_neg fun heq => hroot heq.symm, h.parent?_root]
  · intro other
    rw [h.children_relink hparent]
    have hnodup := (h.nodup_children other).filter (· != id)
    split
    · refine List.nodup_append.mpr ⟨hnodup, List.nodup_singleton _, fun a ha b hb heq => ?_⟩
      have hne := (List.mem_filter.mp ha).2
      rw [heq, List.mem_singleton.mp hb] at hne
      simp at hne
    · rwa [List.append_nil]
  · intro other child
    rw [h.children_relink hparent, parent?_relink hid, List.mem_append, List.mem_filter,
      h.mem_children_iff]
    by_cases hchild : child = id
    · subst hchild
      by_cases heq : other = parent
      · simp [heq]
      · simp [heq, Ne.symm heq]
    · by_cases heq : other = parent <;> simp [heq, hchild]
  · intro other hother'
    rw [contains_relink] at hother'
    by_cases hbelow : tree.isAbove id other = true
    · revert hbelow
      refine h.up_induction (motive := fun other => tree.isAbove id other = true →
        (tree.relink id parent).Rooted other) (fun _ => .root) ?_ hother'
      intro other up hlink ih hbelow
      by_cases heq : other = id
      · rw [heq]
        exact hmoved
      · rcases (h.isAbove_child_iff hlink).mp hbelow with heq' | hbelow
        · exact absurd heq'.symm heq
        · exact .child (by rw [parent?_relink hid, if_neg heq, hlink]) (ih hbelow)
    · exact hother hother' hbelow

/-! ## Removing -/

theorem Linked.spans_unlink (h : tree.Linked) {id : NodeId} {node cut : Node P}
    (hnode : tree.find? id = some node) (hcut : (tree.unlink id).find? id = some cut) :
    (tree.unlink id).Spans [id] (.cons (id, cut) (tree.branches (tree.children id)) .nil) := by
  have hid : tree.contains id = true := contains_iff.mpr ⟨node, hnode⟩
  have hnodup := h.nodup_numbers (h.spans_singleton hnode) (apart_singleton tree id)
  have hmem : ∀ other ∈ (tree.branches (tree.children id)).numbers,
      tree.contains other = true ∧ tree.isAbove id other = true := by
    intro other hother
    have hin := h.mem_descendants_iff hid other
    rw [h.descendants_eq hnode] at hin
    exact hin.mp (List.mem_cons_of_mem _ hother)
  have hdown := (h.spans_children id).congr (tree.unlink id) fun other hother => by
    refine find?_unlink_of_ne ?_ fun hlink => ?_
    · intro heq
      rw [Forest.numbers_cons, List.nodup_cons] at hnodup
      exact hnodup.1 (List.mem_append_left _ (heq ▸ hother))
    · exact h.not_isAbove_parent hlink (hmem other hother).2
  have hchildren : cut.children = tree.children id := by
    rw [← children_of_find? hcut, h.children_unlink, h.filter_children_of_ne]
    intro hlink
    exact h.not_isAbove_parent hlink (h.isAbove_self hid)
  exact .cons hcut (hchildren ▸ hdown) .nil

theorem Linked.descendants_unlink (h : tree.Linked) {id : NodeId}
    (hid : tree.contains id = true) :
    (tree.unlink id).descendants id = tree.descendants id := by
  obtain ⟨node, hnode⟩ := contains_iff.mp hid
  obtain ⟨cut, hcut⟩ := contains_iff.mp ((contains_unlink tree id id).trans hid)
  have hsize := h.size_le_bound (h.spans_singleton hnode) (apart_singleton tree id)
  rw [(h.spans_unlink hnode hcut).descendants_eq (by rw [bound_unlink]; exact hsize),
    h.descendants_eq hnode]
  simp

theorem descendants_of_not_contains {id : NodeId} (hid : ¬tree.contains id = true) :
    tree.descendants id = [] := by
  have hnone : tree.find? id = none := by simpa [contains] using hid
  rw [descendants]
  cases tree.bound with
  | zero => rfl
  | succ room => cases room <;> simp [gather, hnone]

theorem prune_of_not_contains {id : NodeId} (hid : ¬tree.contains id = true) :
    tree.prune id = tree := by
  rw [prune, unlink_of_parent?_eq_none (parent?_of_not_contains hid)]
  simp only [descendants_of_not_contains hid, List.foldl_nil]

theorem Linked.find?_prune (h : tree.Linked) {id : NodeId} (hid : tree.contains id = true)
    (other : NodeId) :
    (tree.prune id).find? other =
      if other ∈ tree.descendants id then none else (tree.unlink id).find? other := by
  rw [prune, find?_foldl_erase, h.descendants_unlink hid]

/-- What stays is what was not below the removed node. -/
theorem Linked.contains_prune_iff (h : tree.Linked) {id : NodeId}
    (hid : tree.contains id = true) (other : NodeId) :
    (tree.prune id).contains other = true ↔
      tree.contains other = true ∧ ¬tree.isAbove id other = true := by
  rw [contains, h.find?_prune hid]
  split
  · next hmem =>
    rw [h.mem_descendants_iff hid] at hmem
    simp [hmem]
  · next hmem =>
    rw [h.mem_descendants_iff hid] at hmem
    rw [← contains, contains_unlink]
    exact ⟨fun hother => ⟨hother, fun habove => hmem ⟨hother, habove⟩⟩, fun hother => hother.1⟩

theorem Linked.parent?_prune (h : tree.Linked) {id other : NodeId}
    (hid : tree.contains id = true) (hother : ¬tree.isAbove id other = true) :
    (tree.prune id).parent? other = tree.parent? other := by
  have hne : other ≠ id := by
    rintro rfl
    exact hother (h.isAbove_self hid)
  rw [parent?, h.find?_prune hid, if_neg fun hmem => hother ((h.mem_descendants_iff hid other).mp hmem).2,
    ← parent?, parent?_unlink, if_neg hne]

theorem Linked.children_prune (h : tree.Linked) {id other : NodeId}
    (hid : tree.contains id = true) (hother : ¬tree.isAbove id other = true) :
    (tree.prune id).children other = (tree.children other).filter (· != id) := by
  rw [children, h.find?_prune hid, if_neg fun hmem => hother ((h.mem_descendants_iff hid other).mp hmem).2,
    ← children, h.children_unlink]

theorem Linked.prune (h : tree.Linked) {id : NodeId} (hroot : id ≠ root) :
    (tree.prune id).Linked := by
  by_cases hid : tree.contains id = true
  swap
  · rwa [prune_of_not_contains hid]
  have habove : ¬tree.isAbove id root = true := fun habove => hroot (h.isAbove_root_iff.mp habove)
  have hold : ∀ {other}, (tree.prune id).contains other = true → ¬tree.isAbove id other = true :=
    fun hother => ((h.contains_prune_iff hid _).mp hother).2
  refine ⟨?_, ?_, ?_, ?_, ?_⟩
  · exact (h.contains_prune_iff hid _).mpr ⟨h.contains_root, habove⟩
  · rw [h.parent?_prune hid habove, h.parent?_root]
  · intro other
    by_cases hother : (tree.prune id).contains other = true
    · rw [h.children_prune hid (hold hother)]
      exact (h.nodup_children other).filter _
    · rw [children_of_not_contains hother]
      exact List.nodup_nil
  · intro other child
    constructor
    · intro hmem
      have hother := hold (contains_of_mem_children hmem)
      rw [h.children_prune hid hother, List.mem_filter, h.mem_children_iff, bne_iff_ne] at hmem
      have hchild : ¬tree.isAbove id child = true := by
        rw [h.isAbove_child_iff hmem.1]
        rintro (heq | hbelow)
        · exact hmem.2 heq.symm
        · exact hother hbelow
      rw [h.parent?_prune hid hchild, hmem.1]
    · intro hlink
      have hchild := hold (contains_of_parent? hlink)
      rw [h.parent?_prune hid hchild] at hlink
      have hother : ¬tree.isAbove id other = true := fun hother =>
        hchild ((h.isAbove_child_iff hlink).mpr (.inr hother))
      rw [h.children_prune hid hother, List.mem_filter, h.mem_children_iff, bne_iff_ne]
      refine ⟨hlink, ?_⟩
      rintro rfl
      exact hchild (h.isAbove_self hid)
  · intro other hother
    obtain ⟨hcontains, hnot⟩ := (h.contains_prune_iff hid _).mp hother
    revert hnot
    refine h.up_induction (motive := fun other => ¬tree.isAbove id other = true →
      (tree.prune id).Rooted other) (fun _ => .root) ?_ hcontains
    intro other up hlink ih hnot
    have hup : ¬tree.isAbove id up = true := fun hup =>
      hnot ((h.isAbove_child_iff hlink).mpr (.inr hup))
    exact .child (by rw [h.parent?_prune hid hnot, hlink]) (ih hup)

end Conform.Tree
