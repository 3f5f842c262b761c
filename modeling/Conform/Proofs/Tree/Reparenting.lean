import Conform.Proofs.Tree.Reachable
import Conform.Proofs.Tree.Transfers
/-!
# Reparenting

When a node may be moved and what a move changes: the row it leaves, the row it
comes to, and its own link. Nodes that are moved below one parent are moved one
after another, up to the first that may not be, and come to stand behind the
children that were there, in their order.
-/

namespace Conform.Tree

universe u

variable {P : Type u} {tree : Tree P}

/-! ## Single moves -/

theorem moveNode_error_iff {id parent : NodeId} :
    (∃ failure, tree.moveNode id parent = (tree, .error failure)) ↔ ¬tree.Movable id parent := by
  constructor
  · rintro ⟨failure, hfail⟩ hmovable
    rw [moveNode_of_movable hmovable] at hfail
    cases congrArg Prod.snd hfail
  · exact moveNode_of_not_movable

theorem movable_of_moveNode_ok {id parent : NodeId} {moved : Tree P}
    (move : tree.moveNode id parent = (moved, .ok ())) :
    tree.Movable id parent ∧ moved = tree.relink id parent := by
  by_cases hmovable : tree.Movable id parent
  · rw [moveNode_of_movable hmovable] at move
    cases move
    exact ⟨hmovable, rfl⟩
  · obtain ⟨failure, hfail⟩ := moveNode_of_not_movable hmovable
    rw [hfail] at move
    cases congrArg Prod.snd move

theorem Linked.not_movable_iff (h : tree.Linked) {id parent : NodeId} :
    ¬tree.Movable id parent ↔ id = root ∨ ¬tree.contains id = true ∨
      ¬tree.contains parent = true ∨ parent ∈ tree.descendants id := by
  constructor
  · intro hnot
    by_contra! hall
    obtain ⟨hroot, hid, hparent, hbelow⟩ := hall
    apply hnot
    refine ⟨hroot, hid, hparent, fun habove => hbelow ?_⟩
    exact (h.mem_descendants_iff hid parent).mpr ⟨hparent, habove⟩
  · rintro (hroot | hid | hparent | hbelow) ⟨hroot', hid', hparent', habove⟩
    · exact hroot' hroot
    · exact hid hid'
    · exact hparent hparent'
    · exact habove ((h.mem_descendants_iff hid' parent).mp hbelow).2

/-! ## Several moves -/

/-- Nodes moved below a parent one after another, none of which fails. -/
inductive MovedEach (parent : NodeId) : Tree P → List NodeId → Tree P → Prop
  | nil (tree : Tree P) : MovedEach parent tree [] tree
  | cons {tree moved last : Tree P} {id : NodeId} {rest : List NodeId}
      (move : tree.moveNode id parent = (moved, .ok ())) (others : MovedEach parent moved rest last) :
      MovedEach parent tree (id :: rest) last

theorem addChildren_cons_of_ok {parent id : NodeId} {moved : Tree P}
    (move : tree.moveNode id parent = (moved, .ok ())) (rest : List NodeId) :
    tree.addChildren parent (id :: rest) = moved.addChildren parent rest := by
  rw [addChildren]
  simp only [move]

theorem addChildren_cons_of_error {parent id : NodeId} {left : Tree P} {failure : Failure}
    (fail : tree.moveNode id parent = (left, .error failure)) (rest : List NodeId) :
    tree.addChildren parent (id :: rest) = (left, .error failure) := by
  rw [addChildren]
  simp only [fail]

theorem addChildren_ok_iff {parent : NodeId} {ids : List NodeId} {last : Tree P} :
    tree.addChildren parent ids = (last, .ok ()) ↔ MovedEach parent tree ids last := by
  induction ids generalizing tree with
  | nil =>
    constructor
    · intro hall
      cases hall
      exact .nil _
    · rintro ⟨⟩
      rfl
  | cons id rest ih =>
    constructor
    · intro hall
      by_cases hmovable : tree.Movable id parent
      · have hmove := moveNode_of_movable hmovable
        rw [addChildren_cons_of_ok hmove] at hall
        exact .cons hmove (ih.mp hall)
      · obtain ⟨failure, hfail⟩ := moveNode_of_not_movable hmovable
        rw [addChildren_cons_of_error hfail] at hall
        cases congrArg Prod.snd hall
    · rintro (_ | ⟨hmove, hothers⟩)
      rw [addChildren_cons_of_ok hmove]
      exact ih.mpr hothers

theorem addChildren_error_iff {parent : NodeId} {ids : List NodeId} {left : Tree P}
    {failure : Failure} :
    tree.addChildren parent ids = (left, .error failure) ↔
      ∃ before id after, ids = before ++ id :: after ∧ MovedEach parent tree before left ∧
        left.moveNode id parent = (left, .error failure) := by
  induction ids generalizing tree with
  | nil =>
    constructor
    · intro hall
      cases congrArg Prod.snd hall
    · rintro ⟨before, id, after, hids, _⟩
      simp at hids
  | cons id rest ih =>
    by_cases hmovable : tree.Movable id parent
    · have hmove := moveNode_of_movable hmovable
      rw [addChildren_cons_of_ok hmove, ih]
      constructor
      · rintro ⟨before, other, after, rfl, hbefore, hfail⟩
        exact ⟨id :: before, other, after, rfl, .cons hmove hbefore, hfail⟩
      · rintro ⟨before, other, after, hids, hbefore, hfail⟩
        cases hbefore with
        | nil =>
          cases hids
          rw [hmove] at hfail
          cases congrArg Prod.snd hfail
        | cons hmove' hothers =>
          cases hids
          rw [hmove] at hmove'
          cases hmove'
          exact ⟨_, other, after, rfl, hothers, hfail⟩
    · obtain ⟨found, hfail⟩ := moveNode_of_not_movable hmovable
      rw [addChildren_cons_of_error hfail]
      constructor
      · intro hall
        cases hall
        exact ⟨[], id, rest, rfl, .nil _, hfail⟩
      · rintro ⟨before, other, after, hids, hbefore, hfail'⟩
        cases hbefore with
        | nil =>
          cases hids
          rw [← hfail, hfail']
        | cons hmove _ =>
          cases hids
          rw [hfail] at hmove
          cases congrArg Prod.snd hmove

/-- Different nodes moved below a parent come behind its other children, in their order. -/
theorem MovedEach.children {parent : NodeId} {ids : List NodeId} {last : Tree P}
    (hmoved : MovedEach parent tree ids last) (h : tree.Linked) (hnodup : ids.Nodup) :
    last.children parent = (tree.children parent).filter (· ∉ ids) ++ ids := by
  induction hmoved with
  | nil => simp
  | @cons tree moved last id rest move _ ih =>
    obtain ⟨hmovable, rfl⟩ := movable_of_moveNode_ok move
    obtain ⟨hid, hrest⟩ := List.nodup_cons.mp hnodup
    rw [ih (h.relink hmovable) hrest, h.children_relink hmovable.contains_parent, if_pos rfl,
      List.filter_append, ← filter_not_mem_cons]
    simp [hid]

/-- A move fails and leaves the tree as it is exactly when the node is the root, one of the two nodes
is unknown, or the new parent lies at or below the node. Else it changes the row that the node leaves
and the row it comes to the end of, and its own link. Several nodes are moved one after another up to
the first that fails, and different nodes that are all moved come behind the other children. -/
theorem moveNode_and_addChildren_rows {good : P → Prop} (hreach : Reachable good tree) :
    (∀ id parent, (∃ failure, tree.moveNode id parent = (tree, .error failure)) ↔
      id = root ∨ ¬tree.contains id = true ∨ ¬tree.contains parent = true ∨
        parent ∈ tree.descendants id) ∧
    (∀ id parent, ¬(id = root ∨ ¬tree.contains id = true ∨ ¬tree.contains parent = true ∨
        parent ∈ tree.descendants id) →
      ∃ moved former, tree.moveNode id parent = (moved, .ok ()) ∧ tree.parent? id = some former ∧
        (∀ other, moved.contains other = tree.contains other ∧
          moved.label? other = tree.label? other) ∧
        (∀ other, other ≠ former → other ≠ parent → moved.children other = tree.children other) ∧
        (former ≠ parent → moved.children former = (tree.children former).filter (· != id)) ∧
        moved.children parent = (tree.children parent).filter (· != id) ++ [id] ∧
        ∀ other, moved.parent? other = if other = id then some parent else tree.parent? other) ∧
    ∀ parent ids,
      (∀ last, tree.addChildren parent ids = (last, .ok ()) ↔ MovedEach parent tree ids last) ∧
      (∀ left failure, tree.addChildren parent ids = (left, .error failure) ↔
        ∃ before id after, ids = before ++ id :: after ∧ MovedEach parent tree before left ∧
          left.moveNode id parent = (left, .error failure)) ∧
      ∀ last, tree.addChildren parent ids = (last, .ok ()) → ids.Nodup →
        last.children parent = (tree.children parent).filter (· ∉ ids) ++ ids := by
  have h := hreach.linked
  refine ⟨?_, ?_, ?_⟩
  · intro id parent
    rw [moveNode_error_iff, h.not_movable_iff]
  · intro id parent hnot
    rw [← h.not_movable_iff, not_not] at hnot
    obtain ⟨former, hformer⟩ := h.exists_parent hnot.contains_id hnot.ne_root
    have hrows : ∀ other, (tree.relink id parent).children other =
        (tree.children other).filter (· != id) ++ if other = parent then [id] else [] :=
      h.children_relink hnot.contains_parent
    refine ⟨_, former, moveNode_of_movable hnot, hformer, ?_, ?_, ?_, ?_, ?_⟩
    · intro other
      exact ⟨contains_relink tree id parent other, label?_relink tree id parent other⟩
    · intro other hother hparent
      have hlink : tree.parent? id ≠ some other := by
        rw [hformer, ne_eq, Option.some.injEq]
        exact fun heq => hother heq.symm
      rw [hrows, if_neg hparent, List.append_nil, h.filter_children_of_ne hlink]
    · intro hne
      rw [hrows, if_neg hne, List.append_nil]
    · rw [hrows, if_pos rfl]
    · exact parent?_relink hnot.contains_id parent
  · intro parent ids
    refine ⟨fun last => addChildren_ok_iff, fun left failure => addChildren_error_iff, ?_⟩
    intro last hall hnodup
    exact (addChildren_ok_iff.mp hall).children h hnodup

private def harbour : Tree Nat :=
  ofOutline ⟨⟨some "harbour", 0⟩,
    .cons ⟨some "quay", 1⟩
      (.cons ⟨some "ferry", 2⟩ (.cons ⟨some "cars", 3⟩ .nil .nil) (.cons ⟨some "tug", 4⟩ .nil .nil))
      (.cons ⟨some "sea", 5⟩ (.cons ⟨some "barge", 6⟩ .nil .nil) .nil)⟩

theorem moveNode_and_addChildren_rows_harbour :
    Reachable (fun _ => True) harbour ∧
    (∃ failure, harbour.moveNode 1 3 = (harbour, .error failure)) ∧
    (∃ moved, harbour.moveNode 2 5 = (moved, .ok ()) ∧ moved.children 1 = [4] ∧
      moved.children 5 = [6, 2] ∧ moved.children 2 = [3]) ∧
    (∃ last, harbour.addChildren 5 [2, 6, 4] = (last, .ok ()) ∧ MovedEach 5 harbour [2, 6, 4] last ∧
      last.children 5 = [2, 6, 4]) ∧
    ∃ left failure, harbour.addChildren 3 [6, 1, 4] = (left, .error failure) ∧
      MovedEach 3 harbour [6] left ∧ left.children 3 = [6] := by
  have hreach : Reachable (fun _ => True) harbour :=
    reachable_ofOutline _ trivial fun _ _ => trivial
  obtain ⟨hfails, hmoves, hall⟩ := moveNode_and_addChildren_rows hreach
  refine ⟨hreach, (hfails 1 3).mpr (by decide), ?_, ?_, ?_⟩
  · obtain ⟨moved, former, hmove, hformer, _, hothers, hleft, hcame, _⟩ := hmoves 2 5 (by decide)
    have hquay : harbour.parent? 2 = some 1 := rfl
    rw [hquay] at hformer
    cases hformer
    exact ⟨moved, hmove, hleft (by decide), hcame, hothers 2 (by decide) (by decide)⟩
  · obtain ⟨hok, _, hrow⟩ := hall 5 [2, 6, 4]
    have hmoved : harbour.addChildren 5 [2, 6, 4] = (_, .ok ()) := rfl
    exact ⟨_, hmoved, (hok _).mp hmoved, hrow _ hmoved (by decide)⟩
  · obtain ⟨hok, _, hrow⟩ := hall 3 [6]
    have hfirst : harbour.addChildren 3 [6] = (_, .ok ()) := rfl
    obtain ⟨_, herror, _⟩ := hall 3 [6, 1, 4]
    have hmoved := (hok _).mp hfirst
    exact ⟨_, _, (herror _ _).mpr ⟨[6], 1, [4], rfl, hmoved, rfl⟩, hmoved, hrow _ hfirst (by decide)⟩

end Conform.Tree
