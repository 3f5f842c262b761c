import Conform.Proofs.Tree.Links
import Conform.Tree.Check
/-!
# The check of links

The check passes exactly when both sides of every link agree and no way
upward comes back to a node on it, whatever the slots hold: unknown numbers,
repeats, several parents or cycles. A way upward that does not come back ends
after at most one node more than there are slots. So does a search upward that
keeps the nodes it has passed and stops at the first that it meets again, and
it finds what the check finds. When the root is the only node without a parent,
a tree that passes is well-formed.
-/

namespace Conform.Tree

universe u

variable {P : Type u} {tree : Tree P}

/-- The links of a tree agree on both sides, and no way upward comes back. -/
structure Consistent (tree : Tree P) : Prop where
  nodup_children (id : NodeId) : (tree.children id).Nodup
  contains_child {id child : NodeId} (listed : child ∈ tree.children id) :
    tree.contains child = true
  parent?_child {id child : NodeId} (listed : child ∈ tree.children id) :
    tree.parent? child = some id
  contains_parent {id parent : NodeId} (link : tree.parent? id = some parent) :
    tree.contains parent = true
  mem_children {id parent : NodeId} (link : tree.parent? id = some parent) :
    id ∈ tree.children parent
  nodup_of_upward {way : List NodeId} (upward : tree.Upward way) : way.Nodup

/-- A search upward that stops at a node it has passed or behind a node without a parent: the
nodes passed so far, the next one, how many it looks at from there on, and whether one came
again. -/
inductive Search (tree : Tree P) : List NodeId → Option NodeId → Nat → Bool → Prop
  | ended {passed : List NodeId} : Search tree passed none 0 false
  | returned {passed : List NodeId} {id : NodeId} (again : id ∈ passed) :
      Search tree passed (some id) 1 true
  | onward {passed : List NodeId} {id : NodeId} {looked : Nat} {answer : Bool}
      (fresh : id ∉ passed) (next : Search tree (id :: passed) (tree.parent? id) looked answer) :
      Search tree passed (some id) (looked + 1) answer

/-! ## Ways that end -/

theorem returns_eq_false_iff (tree : Tree P) (id : NodeId) :
    tree.returns id = false ↔ ∃ way, tree.Summit id way := by
  rw [returns, decide_eq_false_iff_not, Nat.not_lt]
  constructor
  · intro hle
    exact ⟨_, Summit.of_length_climb_lt (Nat.lt_succ_of_le hle)⟩
  · rintro ⟨way, hway⟩
    have hle := hway.upward.length_le hway.nodup
    rw [hway.climb_eq, List.length_take]
    omega

theorem returns_eq_false_of_nodup {id : NodeId}
    (h : ∀ way, tree.Upward way → way.Nodup) : tree.returns id = false := by
  have hclimb := tree.upward_climb (tree.bound + 2) id
  have hle := hclimb.length_le (h _ hclimb)
  rw [returns, decide_eq_false_iff_not]
  omega

theorem Summit.nodup_of_upward {id : NodeId} {way rest : List NodeId} (h : tree.Summit id way)
    (hrest : tree.Upward (id :: rest)) : (id :: rest).Nodup :=
  h.nodup.sublist (h.isPrefix hrest).sublist

/-! ## The search -/

namespace Search

variable {passed : List NodeId} {next : Option NodeId} {looked looked' : Nat}
  {answer answer' : Bool}

theorem unique (h : tree.Search passed next looked answer)
    (hother : tree.Search passed next looked' answer') : looked' = looked ∧ answer' = answer := by
  induction h generalizing looked' with
  | ended =>
    cases hother
    exact ⟨rfl, rfl⟩
  | returned again =>
    cases hother with
    | returned => exact ⟨rfl, rfl⟩
    | onward fresh _ => exact absurd again fresh
  | onward fresh _ ih =>
    cases hother with
    | returned again => exact absurd again fresh
    | onward _ hnext =>
      obtain ⟨rfl, rfl⟩ := ih hnext
      exact ⟨rfl, rfl⟩

/-- Every node looked at but the last is a further one of the tree, so the slots bound the
search. -/
theorem exists_of_passed (hnodup : passed.Nodup)
    (hpassed : ∀ id ∈ passed, tree.contains id = true) {room : Nat}
    (hroom : tree.bound ≤ passed.length + room) (id : NodeId) :
    ∃ looked ≤ room + 1, ∃ answer, tree.Search passed (some id) looked answer := by
  induction room generalizing passed id with
  | zero =>
    by_cases hid : id ∈ passed
    · exact ⟨1, Nat.le_refl _, true, .returned hid⟩
    · cases hlink : tree.parent? id with
      | none => exact ⟨1, Nat.le_refl _, false, .onward hid (hlink ▸ .ended)⟩
      | some parent =>
        have hle : (id :: passed).length ≤ tree.bound :=
          length_le_bound (List.nodup_cons.mpr ⟨hid, hnodup⟩)
            (List.forall_mem_cons.mpr ⟨contains_of_parent? hlink, hpassed⟩)
        rw [List.length_cons] at hle
        omega
  | succ room ih =>
    by_cases hid : id ∈ passed
    · exact ⟨1, by omega, true, .returned hid⟩
    · cases hlink : tree.parent? id with
      | none => exact ⟨1, by omega, false, .onward hid (hlink ▸ .ended)⟩
      | some parent =>
        have hroom' : tree.bound ≤ (id :: passed).length + room := by
          rw [List.length_cons]
          omega
        obtain ⟨looked, hlooked, answer, hnext⟩ := ih (List.nodup_cons.mpr ⟨hid, hnodup⟩)
          (List.forall_mem_cons.mpr ⟨contains_of_parent? hlink, hpassed⟩) hroom' parent
        exact ⟨looked + 1, by omega, answer, .onward hid (hlink ▸ hnext)⟩

theorem exists_summit {id : NodeId} (h : tree.Search passed (some id) looked false) :
    ∃ way, tree.Summit id way := by
  generalize hnext : some id = next at h
  generalize hanswer : false = answer at h
  induction h generalizing id with
  | ended => cases hnext
  | returned => cases hanswer
  | @onward passed other looked answer fresh next ih =>
    cases hnext
    cases hlink : tree.parent? other with
    | none => exact ⟨_, .top hlink⟩
    | some parent =>
      obtain ⟨way, hway⟩ := ih hlink.symm hanswer
      exact ⟨_, .child hlink hway⟩

theorem eq_false_of_summit {id : NodeId} {way : List NodeId}
    (h : tree.Search passed (some id) looked answer) (hway : tree.Summit id way)
    (hfresh : passed.Disjoint way) : answer = false := by
  induction hway generalizing passed looked with
  | top link =>
    cases h with
    | returned again => exact absurd List.mem_cons_self (hfresh again)
    | onward fresh hnext =>
      rw [link] at hnext
      cases hnext
      rfl
  | child link up ih =>
    rw [List.disjoint_cons_right] at hfresh
    cases h with
    | returned again => exact absurd again hfresh.1
    | onward fresh hnext =>
      rw [link] at hnext
      apply ih hnext
      rw [List.disjoint_cons_left]
      exact ⟨(List.nodup_cons.mp (Summit.child link up).nodup).1, hfresh.2⟩

theorem answer_eq {id : NodeId} (h : tree.Search [] (some id) looked answer) :
    answer = tree.returns id := by
  cases hreturns : tree.returns id with
  | false =>
    obtain ⟨way, hway⟩ := (tree.returns_eq_false_iff id).mp hreturns
    exact h.eq_false_of_summit hway (List.disjoint_nil_left way)
  | true =>
    cases answer with
    | true => rfl
    | false =>
      rw [(tree.returns_eq_false_iff id).mpr h.exists_summit] at hreturns
      cases hreturns

end Search

/-! ## What passes -/

theorem checkChildren_ok_iff {id : NodeId} {seen rest : List NodeId} :
    tree.checkChildren id seen rest = .ok () ↔
      rest.Nodup ∧ seen.Disjoint rest ∧ ∀ child ∈ rest, tree.parent? child = some id := by
  induction rest generalizing seen with
  | nil => simp [checkChildren]
  | cons child rest ih =>
    rw [checkChildren, List.nodup_cons, List.disjoint_cons_right, List.forall_mem_cons]
    by_cases hseen : child ∈ seen
    · simp [hseen]
    · cases hnode : tree.find? child with
      | none => simp [hseen, parent?, hnode]
      | some node =>
        by_cases hlink : node.parent? = some id
        · simp [hseen, parent?, hnode, hlink, ih, List.disjoint_cons_left]
          tauto
        · simp [hseen, parent?, hnode, hlink]

theorem checkNode_ok_iff {id : NodeId} :
    tree.checkNode id = .ok () ↔
      ((tree.children id).Nodup ∧ ∀ child ∈ tree.children id, tree.parent? child = some id) ∧
        ∀ parent, tree.parent? id = some parent → id ∈ tree.children parent := by
  have hchildren : tree.checkChildren id [] (tree.children id) = .ok () ↔
      (tree.children id).Nodup ∧ ∀ child ∈ tree.children id, tree.parent? child = some id := by
    simp [checkChildren_ok_iff]
  rw [checkNode, ← hchildren]
  cases tree.checkChildren id [] (tree.children id) with
  | error corruption => simp
  | ok =>
    cases tree.parent? id with
    | none => simp
    | some parent => simp

theorem firstCorruption_ok_iff {check : NodeId → Except Corruption Unit} {ids : List NodeId} :
    firstCorruption check ids = .ok () ↔ ∀ id ∈ ids, check id = .ok () := by
  induction ids with
  | nil => simp [firstCorruption]
  | cons id rest ih =>
    rw [firstCorruption, List.forall_mem_cons, ← ih]
    cases check id with
    | error corruption => simp
    | ok => simp

theorem validate_ok_iff : tree.validate = .ok () ↔
    (∀ id ∈ tree.ids, tree.checkNode id = .ok ()) ∧ ∀ id ∈ tree.ids, tree.returns id = false := by
  have hany : (tree.ids.any tree.returns) = false ↔ ∀ id ∈ tree.ids, tree.returns id = false := by
    simp
  rw [validate, ← firstCorruption_ok_iff, ← hany]
  cases firstCorruption tree.checkNode tree.ids with
  | error corruption => simp
  | ok => cases tree.ids.any tree.returns <;> simp

theorem mem_ids_iff (tree : Tree P) (id : NodeId) : id ∈ tree.ids ↔ tree.contains id = true := by
  rw [ids, List.mem_filter, List.mem_range]
  exact ⟨fun hid => hid.2, fun hid => ⟨lt_bound_of_contains hid, hid⟩⟩

theorem Consistent.validate_eq_ok (h : tree.Consistent) : tree.validate = .ok () := by
  apply validate_ok_iff.mpr
  constructor
  · intro id _
    exact checkNode_ok_iff.mpr
      ⟨⟨h.nodup_children id, fun child => h.parent?_child⟩, fun parent => h.mem_children⟩
  · intro id _
    exact returns_eq_false_of_nodup fun way => h.nodup_of_upward

theorem consistent_of_validate (h : tree.validate = .ok ()) : tree.Consistent := by
  obtain ⟨hnodes, hreturns⟩ := validate_ok_iff.mp h
  have hlinks : ∀ id, tree.contains id = true → _ := fun id hid =>
    checkNode_ok_iff.mp (hnodes id ((tree.mem_ids_iff id).mpr hid))
  have hparent : ∀ id child, child ∈ tree.children id → tree.parent? child = some id :=
    fun id child hchild => (hlinks id (contains_of_mem_children hchild)).1.2 child hchild
  have hlisted : ∀ id parent, tree.parent? id = some parent → id ∈ tree.children parent :=
    fun id parent hlink => (hlinks id (contains_of_parent? hlink)).2 parent hlink
  refine ⟨fun id => ?_, fun hchild => contains_of_parent? (hparent _ _ hchild), hparent _ _,
    fun hlink => contains_of_mem_children (hlisted _ _ hlink), hlisted _ _, fun {way} hway => ?_⟩
  · cases hid : tree.contains id with
    | true => exact (hlinks id hid).1.1
    | false => simp [children_of_not_contains, hid]
  · cases hway with
    | nil => exact List.nodup_nil
    | singleton id => exact List.nodup_singleton id
    | cons_cons link rest =>
      have hid := (tree.mem_ids_iff _).mpr (contains_of_parent? link)
      obtain ⟨summit, hsummit⟩ := (tree.returns_eq_false_iff _).mp (hreturns _ hid)
      exact hsummit.nodup_of_upward (.cons_cons link rest)

theorem Linked.consistent (h : tree.Linked) : tree.Consistent where
  nodup_children := h.nodup_children
  contains_child := h.contains_child
  parent?_child hchild := (h.mem_children_iff _ _).mp hchild
  contains_parent := h.contains_parent
  mem_children hlink := (h.mem_children_iff _ _).mpr hlink
  nodup_of_upward {way} hway := by
    cases hway with
    | nil => exact List.nodup_nil
    | singleton id => exact List.nodup_singleton id
    | cons_cons link rest =>
      have hline := h.line_lineage (contains_of_parent? link)
      exact (hline.summit h.parent?_root).nodup_of_upward (.cons_cons link rest)

theorem Linked.validate_eq_ok (h : tree.Linked) : tree.validate = .ok () :=
  h.consistent.validate_eq_ok

/-- Ways upward lead to the root when no other node is without a parent. -/
theorem Consistent.rooted (h : tree.Consistent)
    (hroot : ∀ id, tree.contains id = true → tree.parent? id = none → id = root) {id : NodeId}
    (hid : tree.contains id = true) {way : List NodeId} (hway : tree.Summit id way) :
    tree.Rooted id := by
  induction hway with
  | top link =>
    rw [hroot _ hid link]
    exact .root
  | child link _ ih => exact .child link (ih (h.contains_parent link))

theorem Consistent.linked (h : tree.Consistent) (hcontains : tree.contains root = true)
    (hroot : ∀ id, tree.contains id = true → (tree.parent? id = none ↔ id = root)) :
    tree.Linked where
  contains_root := hcontains
  parent?_root := (hroot root hcontains).mpr rfl
  nodup_children := h.nodup_children
  mem_children_iff id child := ⟨h.parent?_child, h.mem_children⟩
  rooted {id} hid := by
    have hreturns : tree.returns id = false :=
      returns_eq_false_of_nodup fun way => h.nodup_of_upward
    obtain ⟨way, hway⟩ := (tree.returns_eq_false_iff id).mp hreturns
    exact h.rooted (fun other hother => (hroot other hother).mp) hid hway

/-- Whatever the slots hold, the search upward from any node ends and tells whether the way comes
back, and a tree passes the check exactly when its links are consistent. If moreover the root is in
the tree and the only node without a parent, one chain of children leads to every node. -/
theorem validate_decides_consistency (tree : Tree P) :
    (tree.validate = .ok () ↔ tree.Consistent) ∧
    (∀ id, ∃ looked ≤ tree.bound + 1, ∀ count answer,
      tree.Search [] (some id) count answer ↔ count = looked ∧ answer = tree.returns id) ∧
    (tree.contains root = true →
      (∀ id, tree.contains id = true → (tree.parent? id = none ↔ id = root)) →
      tree.validate = .ok () →
      ∀ id, tree.contains id = true → ∃! chain, tree.Chain chain id) := by
  refine ⟨⟨consistent_of_validate, Consistent.validate_eq_ok⟩, fun id => ?_, ?_⟩
  · obtain ⟨looked, hlooked, answer, hsearch⟩ : ∃ looked ≤ tree.bound + 1, ∃ answer,
        tree.Search [] (some id) looked answer :=
      Search.exists_of_passed List.nodup_nil (fun _ hother => nomatch hother)
        (Nat.le_of_eq (Nat.zero_add tree.bound).symm) id
    obtain rfl := hsearch.answer_eq
    refine ⟨looked, hlooked, fun count answer => ⟨hsearch.unique, ?_⟩⟩
    rintro ⟨rfl, rfl⟩
    exact hsearch
  · intro hcontains hroot hpasses id hid
    exact ((consistent_of_validate hpasses).linked hcontains hroot).wellFormed.exists_unique_chain hid

private def circle : Tree Nat :=
  ⟨#[some ⟨⟨some "hub", 0⟩, none, []⟩, some ⟨⟨some "east", 1⟩, some 2, [2]⟩,
    some ⟨⟨some "west", 2⟩, some 1, [1]⟩]⟩

private def spokes : Tree Nat :=
  ⟨#[some ⟨⟨some "hub", 0⟩, none, [3]⟩, none, some ⟨⟨some "rim", 2⟩, some 3, []⟩,
    some ⟨⟨some "spoke", 1⟩, some 0, [2]⟩]⟩

theorem validate_decides_consistency_circle :
    circle.validate = .error (.misuse (.brokenTree .cycle)) ∧ ¬circle.Consistent ∧
    (∃ looked ≤ 4, circle.Search [] (some 1) looked true) ∧
    spokes.contains root = true ∧
    (∀ id, spokes.contains id = true → (spokes.parent? id = none ↔ id = root)) ∧
    spokes.validate = .ok () ∧ ∃! chain, spokes.Chain chain 2 := by
  have hcircle : circle.validate = .error (.misuse (.brokenTree .cycle)) := rfl
  have hspokes : spokes.validate = .ok () := rfl
  have hroot : ∀ id, spokes.contains id = true → (spokes.parent? id = none ↔ id = root) := by
    intro id hid
    have hlt : id < 4 := lt_bound_of_contains hid
    revert hid
    revert id
    decide
  obtain ⟨hpasses, hsearch, _⟩ := validate_decides_consistency circle
  obtain ⟨looked, hlooked, hfinds⟩ := hsearch 1
  refine ⟨hcircle, fun h => ?_, ⟨looked, hlooked, (hfinds _ _).mpr ⟨rfl, rfl⟩⟩, rfl, hroot, hspokes,
    (validate_decides_consistency spokes).2.2 rfl hroot hspokes 2 rfl⟩
  rw [hpasses.mpr h] at hcircle
  cases hcircle

end Conform.Tree
