import Conform.Proofs.Tree.Outlines
/-!
# Survivors

The nodes below a given one that pass a test together with all nodes from
there down to them. They are a tree again: below a survivor survive the
children that pass.
-/

namespace Conform.Tree

universe u

variable {P : Type u} {tree : Tree P} {keep : NodeId → Bool}

/-- A node at or below another one, such that all from that one down to it pass a test. -/
structure Survives (tree : Tree P) (keep : NodeId → Bool) (top id : NodeId) : Prop where
  contains : tree.contains id = true
  isAbove : tree.isAbove top id = true
  kept {between : NodeId} (below : tree.isAbove top between = true)
      (above : tree.isAbove between id = true) : keep between = true

namespace Linked

theorem contains_of_isAbove (h : tree.Linked) {ancestor id : NodeId}
    (hid : tree.contains id = true) (habove : tree.isAbove ancestor id = true) :
    tree.contains ancestor = true := by
  rw [isAbove, List.contains_iff_mem] at habove
  exact (h.line_lineage hid).contains_of_mem h.contains_root habove

theorem isAbove_antisymm (h : tree.Linked) {id other : NodeId} (hid : tree.contains id = true)
    (hother : tree.isAbove id other = true) (habove : tree.isAbove other id = true) :
    other = id := by
  have hcontains := h.contains_of_isAbove hid habove
  rcases h.eq_or_isAbove_child hcontains hother with heq | ⟨child, hchild, hbelow⟩
  · exact heq
  · have hlink := (h.mem_children_iff id child).mp hchild
    exact absurd (h.isAbove_trans hid hbelow habove) (h.not_isAbove_parent hlink)

/-- A survivor is the node itself or survives below one of its children. -/
theorem survives_iff (h : tree.Linked) {top id : NodeId} (htop : tree.contains top = true) :
    tree.Survives keep top id ↔
      keep top = true ∧ (id = top ∨ ∃ child ∈ tree.children top, tree.Survives keep child id) := by
  constructor
  · intro hid
    refine ⟨hid.kept (h.isAbove_self htop) hid.isAbove, ?_⟩
    rcases h.eq_or_isAbove_child hid.contains hid.isAbove with heq | ⟨child, hchild, hbelow⟩
    · exact .inl heq
    · refine .inr ⟨child, hchild, hid.contains, hbelow, fun hbetween habove => ?_⟩
      have hcontains := h.contains_of_isAbove hid.contains habove
      exact hid.kept (h.isAbove_of_isAbove_child hchild hcontains hbetween) habove
  · rintro ⟨hkeep, rfl | ⟨child, hchild, hid⟩⟩
    · refine ⟨htop, h.isAbove_self htop, fun hbelow habove => ?_⟩
      rwa [h.isAbove_antisymm htop hbelow habove]
    · have htrans := h.isAbove_of_isAbove_child hchild hid.contains hid.isAbove
      refine ⟨hid.contains, htrans, fun {between} hbelow habove => ?_⟩
      have hcontains := h.contains_of_isAbove hid.contains habove
      rcases h.eq_or_isAbove_child hcontains hbelow with rfl | ⟨other, hother, hbetween⟩
      · exact hkeep
      · have hsame : other = child :=
          h.eq_of_isAbove_of_siblings ((h.mem_children_iff top other).mp hother)
            ((h.mem_children_iff top child).mp hchild) hid.contains
            (h.isAbove_trans hid.contains hbetween habove) hid.isAbove
        subst hsame
        exact hid.kept hbetween habove

theorem mem_numbers_sift_iff (h : tree.Linked) {ids : List NodeId}
    {forest : Forest (NodeId × Node P)} (hspan : tree.Spans ids forest) (id : NodeId) :
    id ∈ (forest.sift (keep ·.1)).numbers ↔ ∃ top ∈ ids, tree.Survives keep top id := by
  induction hspan with
  | nil => simp [Forest.sift]
  | @cons top node rest below others found _ _ ihdown ihright =>
    have htop : tree.contains top = true := contains_iff.mpr ⟨node, found⟩
    have hiff : tree.Survives keep top id ↔ _ := h.survives_iff htop
    rw [children_of_find? found] at hiff
    rw [Forest.sift, List.exists_mem_cons_iff, hiff, ← ihright, ← ihdown]
    cases keep top <;> simp [or_assoc]

end Linked

/-! ## Rows of survivors -/

theorem Spans.rows_sift {ids : List NodeId} {forest : Forest (NodeId × Node P)}
    (h : tree.Spans ids forest) (keep : NodeId → Bool) :
    (forest.sift (keep ·.1)).rows.map (·.map (·.1)) =
      (forest.sift (keep ·.1)).preorder.map (·.2.children.filter keep) := by
  induction h with
  | nil => rfl
  | cons _ down _ ihdown ihright =>
    rw [Forest.sift]
    split
    · have hrow := congrArg (List.filter keep) down.roots_fst
      rw [List.filter_map] at hrow
      simp only [Forest.rows, Forest.preorder, List.map_cons, List.map_append, Forest.roots_sift,
        ihdown, ihright, ← hrow]
      rfl
    · exact ihright

theorem Spans.rows_eq {ids : List NodeId} {forest : Forest (NodeId × Node P)}
    (h : tree.Spans ids forest) :
    forest.rows.map (·.map (·.1)) = forest.preorder.map (·.2.children) := by
  have hrows := h.rows_sift fun _ => true
  rw [Forest.sift_eq_self fun _ => rfl] at hrows
  simpa using hrows

end Conform.Tree
