import Conform.Proofs.Schema.Merge
import Conform.Proofs.Schema.Verification
/-!
# Leaves of merged schemas

A leaf of a merged schema has the whole entry of a leaf of one of the two
schemas, and no node with children becomes a leaf. So what the leaves of both
schemas meet the leaves of the merged one meet as well, whatever the nodes are
called; that their options are in order is one such condition.
-/

namespace Conform

universe u

open Conform.Tree (root)

def Forest.LeavesMeet {P : Type u} (good : P → Prop) (forest : Forest (Label P)) : Prop :=
  ∀ label ∈ forest.leaves, good label.payload

/-- The leaves of a whole tree; the root is one when nothing is below it. -/
def Outline.LeavesMeet {P : Type u} (good : P → Prop) (outline : Outline P) : Prop :=
  (Forest.cons outline.root outline.below .nil).LeavesMeet good

namespace Forest

variable {P : Type u} {good : P → Prop}

@[simp] theorem leavesMeet_nil : (nil : Forest (Label P)).LeavesMeet good := by
  simp [LeavesMeet, leaves]

theorem leavesMeet_cons_iff {label : Label P} {below rest : Forest (Label P)} :
    (cons label below rest).LeavesMeet good ↔
      (below = nil → good label.payload) ∧ below.LeavesMeet good ∧ rest.LeavesMeet good := by
  simp only [LeavesMeet, mem_leaves_cons]
  constructor
  · intro h
    exact ⟨fun hnil => h label (.inl ⟨hnil, rfl⟩), fun other hother => h other (.inr (.inl hother)),
      fun other hother => h other (.inr (.inr hother))⟩
  · rintro ⟨hroot, hbelow, hrest⟩ other (⟨hnil, rfl⟩ | hother | hother)
    · exact hroot hnil
    · exact hbelow other hother
    · exact hrest other hother

theorem leavesMeet_iff_trees {forest : Forest (Label P)} :
    forest.LeavesMeet good ↔
      ∀ tree ∈ forest.trees, Outline.LeavesMeet good ⟨tree.1, tree.2⟩ := by
  induction forest with
  | nil => simp [trees]
  | cons label below rest _ ih =>
    rw [trees_cons, List.forall_mem_cons, ← ih, leavesMeet_cons_iff, Outline.LeavesMeet,
      leavesMeet_cons_iff]
    simp [and_assoc]

theorem leavesMeet_bare [Inhabited P] {forest : Forest (Label P)} :
    forest.bare.LeavesMeet good ↔ forest.LeavesMeet good := by
  rw [LeavesMeet, leaves_bare, LeavesMeet]

end Forest

theorem Outline.leavesMeet_bare {P : Type u} [Inhabited P] {good : P → Prop}
    {outline : Outline P} (h : outline.LeavesMeet good) : outline.bare.LeavesMeet good := by
  rw [LeavesMeet, Forest.leavesMeet_cons_iff] at h ⊢
  refine ⟨fun hnil => ?_, Forest.leavesMeet_bare.mpr h.2.1, h.2.2⟩
  have hleaf : outline.below.isEmpty = true := by
    rw [← outline.isEmpty_bare, hnil]
    rfl
  rw [root_bare hleaf]
  exact h.1 ((Forest.isEmpty_iff _).mp hleaf)

/-! ## Leaves of trees -/

theorem Tree.Spans.mem_leaves_iff {P : Type u} {tree : Tree P} {ids : List NodeId}
    {forest : Forest (NodeId × Node P)} (h : tree.Spans ids forest) {entry : NodeId × Node P} :
    entry ∈ forest.leaves ↔ entry ∈ forest.preorder ∧ entry.2.children = [] := by
  induction h with
  | nil => simp [Forest.leaves, Forest.preorder]
  | @cons id node rest below others _ down _ ihdown ihright =>
    have hnil : below = .nil ↔ node.children = [] := by
      constructor
      · rintro rfl
        exact down.roots_fst.symm
      · intro hchildren
        rw [hchildren] at down
        cases down
        rfl
    have hbelow (hchildren : node.children = []) : entry ∉ below.preorder := by
      rw [hnil.mpr hchildren]
      simp [Forest.preorder]
    rw [Forest.mem_leaves_cons, ihdown, ihright, hnil, Forest.preorder, List.mem_cons,
      List.mem_append]
    constructor
    · rintro (⟨hchildren, rfl⟩ | ⟨hmem, hchildren⟩ | ⟨hmem, hchildren⟩)
      · exact ⟨.inl rfl, hchildren⟩
      · exact ⟨.inr (.inl hmem), hchildren⟩
      · exact ⟨.inr (.inr hmem), hchildren⟩
    · rintro ⟨rfl | hmem | hmem, hchildren⟩
      · exact .inl ⟨hchildren, rfl⟩
      · exact .inr (.inl ⟨hmem, hchildren⟩)
      · exact .inr (.inr ⟨hmem, hchildren⟩)

namespace Schema

variable {atlas : Atlas} {schema a b m : Schema} {good : Entry → Prop}

theorem verify_ok_iff_leavesMeet (h : schema.Linked) {outline : Outline Entry}
    (houtline : schema.outline? root = some outline) :
    schema.verify atlas = .ok () ↔ outline.LeavesMeet fun entry => entry.verify atlas = .ok () := by
  obtain ⟨node, hnode, rfl⟩ := Option.map_eq_some_iff.mp houtline
  have hspan := h.spans_singleton hnode
  rw [verify_ok_iff h, Outline.LeavesMeet, Forest.LeavesMeet]
  show _ ↔ ∀ label ∈ ((Forest.cons (root, node) (schema.branches (schema.children root)) .nil).map
    (·.2.toLabel)).leaves, _
  rw [Forest.leaves_map, List.forall_mem_map]
  constructor
  · intro hall entry hentry
    obtain ⟨hmem, hchildren⟩ := hspan.mem_leaves_iff.mp hentry
    have hfind : schema.find? entry.1 = some entry.2 := hspan.find?_of_mem hmem
    apply hall entry.1 (Tree.contains_iff.mpr ⟨_, hfind⟩)
    · simp [Tree.isLeaf, Tree.children_of_find? hfind, hchildren]
    · simp [Tree.payload?, hfind]
  · intro hall id hid hleaf entry hentry
    have hmem : id ∈ Forest.numbers (.cons (root, node) (schema.branches (schema.children root))
        .nil) :=
      (h.mem_numbers_iff hspan id).mpr ⟨hid, root, by simp, h.root_isAbove hid⟩
    obtain ⟨⟨_, held⟩, hheld, rfl⟩ := List.mem_map.mp hmem
    have hfind := hspan.find?_of_mem hheld
    have hchildren : held.children = [] := by
      simpa [Tree.isLeaf, Tree.children_of_find? hfind] using hleaf
    have hverify := hall _ (hspan.mem_leaves_iff.mpr ⟨hheld, hchildren⟩)
    simp only [Tree.payload?, hfind, Option.map_some, Option.some.injEq] at hentry
    rwa [← hentry]

/-! ## Leaves of merged rows -/

section Row

variable {place : Path} {theirs : Forest (NodeId × Label Entry)}
  {ours merged : Forest (Label Entry)} {used : List NodeId}

theorem eq_nil_of_withRest (h : mergeRow place theirs ours = .ok (merged, used))
    (hnil : withRest theirs (merged, used) = .nil) : ours = .nil := by
  have htrees := congrArg Forest.trees hnil
  rw [trees_withRest, Forest.trees, List.append_eq_nil_iff] at htrees
  have hrel := (trees_of_mergeRow h).1
  rw [htrees.1, List.forall₂_nil_right_iff] at hrel
  exact Forest.eq_nil_of_trees hrel

theorem leavesMeet_withRest (hmerged : merged.LeavesMeet good)
    (htheirs : (theirs.map (·.2)).LeavesMeet good) :
    (withRest theirs (merged, used)).LeavesMeet good := by
  rw [Forest.leavesMeet_iff_trees] at hmerged htheirs ⊢
  intro tree htree
  rw [trees_withRest, List.mem_append] at htree
  rcases htree with htree | htree
  · exact hmerged tree htree
  · obtain ⟨other, hother, rfl⟩ := List.mem_map.mp htree
    have hmem : (other.1.2, other.2.map (·.2)) ∈ (theirs.map (·.2)).trees := by
      rw [Forest.trees_map]
      exact List.mem_map_of_mem (f := fun tree => (tree.1.2, tree.2.map (·.2)))
        (List.mem_of_mem_filter hother)
    exact Outline.leavesMeet_bare (htheirs _ hmem)

theorem leavesMeet_mergeBelow {path : Path} {label other : Label Entry}
    {below mergedBelow : Forest (Label Entry)} {otherBelow : Forest (NodeId × Label Entry)}
    (hrow : ∀ {merged used}, mergeRow path otherBelow below = .ok (merged, used) →
      merged.LeavesMeet good)
    (hother : (otherBelow.map (·.2)).LeavesMeet good)
    (h : mergeBelow path label other below otherBelow = .ok mergedBelow) :
    (mergedBelow = .nil → below = .nil) ∧ mergedBelow.LeavesMeet good := by
  rw [mergeBelow] at h
  split at h
  · next hbelow _ =>
    obtain ⟨_, _, rfl⟩ := map_eq_ok_iff.mp h
    exact ⟨fun _ => (Forest.isEmpty_iff below).mp hbelow, Forest.leavesMeet_nil⟩
  · obtain ⟨⟨row, used⟩, hmerged, rfl⟩ := map_eq_ok_iff.mp h
    exact ⟨eq_nil_of_withRest hmerged, leavesMeet_withRest (hrow hmerged) hother⟩
  · cases h

theorem leavesMeet_mergeRow (hours : ours.LeavesMeet good)
    (htheirs : (theirs.map (·.2)).LeavesMeet good)
    (h : mergeRow place theirs ours = .ok (merged, used)) : merged.LeavesMeet good := by
  induction ours generalizing place theirs merged used with
  | nil =>
    cases h
    exact Forest.leavesMeet_nil
  | cons label below rest ihbelow ihrest =>
    rw [Forest.leavesMeet_cons_iff] at hours
    obtain ⟨hlabel, hbelow, hrest⟩ := hours
    cases hfind : partner? theirs label.title with
    | none =>
      rw [mergeRow_cons_missing hfind] at h
      obtain ⟨⟨others, used'⟩, hothers, heq⟩ := bind_eq_ok_iff.mp h
      cases heq
      rw [Forest.leavesMeet_cons_iff]
      refine ⟨fun hnil => ?_, Forest.leavesMeet_bare.mpr hbelow, ihrest hrest htheirs hothers⟩
      cases below with
      | nil => exact hlabel rfl
      | cons => cases hnil
    | some found =>
      obtain ⟨⟨id, other⟩, otherBelow⟩ := found
      rw [mergeRow_cons_found hfind] at h
      obtain ⟨mergedBelow, hmerged, h⟩ := bind_eq_ok_iff.mp h
      obtain ⟨⟨others, used'⟩, hothers, heq⟩ := bind_eq_ok_iff.mp h
      cases heq
      have hother : (otherBelow.map (·.2)).LeavesMeet good := by
        have hmem : (other, otherBelow.map (·.2)) ∈ (theirs.map (·.2)).trees := by
          rw [Forest.trees_map]
          exact List.mem_map_of_mem (f := fun tree => (tree.1.2, tree.2.map (·.2)))
            (mem_trees_of_partner? hfind)
        have htree := Forest.leavesMeet_iff_trees.mp htheirs _ hmem
        exact (Forest.leavesMeet_cons_iff.mp htree).2.1
      obtain ⟨hleaf, hdown⟩ := leavesMeet_mergeBelow (ihbelow hbelow hother) hother hmerged
      rw [Forest.leavesMeet_cons_iff]
      exact ⟨fun hnil => hlabel (hleaf hnil), hdown, ihrest hrest htheirs hothers⟩

end Row

/-! ## Merged schemas -/

theorem linked_of_merge (ha : a.Linked) (hb : b.Linked) (h : a.merge b = .ok m) : m.Linked := by
  rw [merge_eq_mergeRows ha hb] at h
  obtain ⟨_, _, heq⟩ := bind_eq_ok_iff.mp h
  cases heq
  exact Tree.linked_ofOutline _

/-- Whatever the leaves of two schemas meet, those of the merged schema meet. -/
theorem leavesMeet_merge (ha : a.Linked) (hb : b.Linked) {ours theirs : Outline Entry}
    (hours : a.outline? root = some ours) (htheirs : b.outline? root = some theirs)
    (h : a.merge b = .ok m) (hgood : ours.LeavesMeet good) (hgood' : theirs.LeavesMeet good) :
    ∃ merged, m.outline? root = some merged ∧ merged.LeavesMeet good := by
  rw [merge_eq_mergeRows ha hb] at h
  obtain ⟨⟨row, used⟩, hrow, heq⟩ := bind_eq_ok_iff.mp h
  cases heq
  refine ⟨_, Tree.outline?_ofOutline _, ?_⟩
  rw [Outline.LeavesMeet, Forest.leavesMeet_cons_iff] at hgood hgood' ⊢
  rw [← Tree.labelsBelow_of_outline? hours] at hgood
  rw [← Tree.labelsBelow_of_outline? htheirs, ← map_snd_numberedBelow] at hgood'
  refine ⟨fun hnil => ?_, leavesMeet_withRest ?_ hgood'.2.1, Forest.leavesMeet_nil⟩
  · have hleaf := hgood.1 (eq_nil_of_withRest hrow hnil)
    rwa [Tree.payload?_of_outline? hours]
  · exact leavesMeet_mergeRow hgood.2.1 hgood'.2.1 hrow

/-- The options of a merged schema are in order when those of both schemas are. -/
theorem verify_of_merge {good good' : Entry → Prop} (ha : Tree.Reachable good a)
    (hb : Tree.Reachable good' b) (hours : a.verify atlas = .ok ())
    (htheirs : b.verify atlas = .ok ()) (h : a.merge b = .ok m) : m.verify atlas = .ok () := by
  obtain ⟨ours, ha'⟩ := ha.linked.exists_outline?
  obtain ⟨theirs, hb'⟩ := hb.linked.exists_outline?
  have hgood := (verify_ok_iff_leavesMeet ha.linked ha').mp hours
  have hgood' := (verify_ok_iff_leavesMeet hb.linked hb').mp htheirs
  obtain ⟨merged, hm, hmerged⟩ := leavesMeet_merge ha.linked hb.linked ha' hb' h hgood hgood'
  exact (verify_ok_iff_leavesMeet (linked_of_merge ha.linked hb.linked h) hm).mpr hmerged

private def fromEntry : Entry :=
  (Entry.ofKind .time).withOption Zone.optionName (.string "Europe/London")

private def rotaSchema : Schema :=
  Tree.ofOutline ⟨⟨some "shift", .blank⟩,
    .cons ⟨some "from", fromEntry⟩ .nil
      (.cons ⟨some "from", .ofKind .date⟩ .nil
        (.cons ⟨none, .blank⟩ (.cons ⟨some "crew", .ofKind .number⟩ .nil .nil) .nil))⟩

private def leadSchema : Schema :=
  Tree.ofOutline ⟨⟨none, .blank⟩,
    .cons ⟨some "", .blank⟩ (.cons ⟨some "lead", .ofKind .string⟩ .nil .nil)
      (.cons ⟨none, .ofKind .boolean⟩ .nil .nil)⟩

private def crewSchema : Schema :=
  Tree.ofOutline ⟨⟨some "shift", .blank⟩,
    .cons ⟨some "from", fromEntry⟩ .nil
      (.cons ⟨some "from", .ofKind .date⟩ .nil
        (.cons ⟨some "", .blank⟩
          (.cons ⟨some "crew", .ofKind .number⟩ .nil (.cons ⟨some "lead", .ofKind .string⟩ .nil .nil))
          (.cons ⟨none, .ofKind .boolean⟩ .nil .nil)))⟩

theorem verify_of_merge_rota :
    Tree.Reachable (fun _ => True) rotaSchema ∧ Tree.Reachable (fun _ => True) leadSchema ∧
    rotaSchema.verify .london = .ok () ∧ leadSchema.verify .london = .ok () ∧
    rotaSchema.merge leadSchema = .ok crewSchema ∧ crewSchema.verify .london = .ok () := by
  have hrota : Tree.Reachable (fun _ => True) rotaSchema :=
    Tree.reachable_ofOutline _ trivial fun _ _ => trivial
  have hlead : Tree.Reachable (fun _ => True) leadSchema :=
    Tree.reachable_ofOutline _ trivial fun _ _ => trivial
  have hverify : rotaSchema.verify .london = .ok () := rfl
  have hverify' : leadSchema.verify .london = .ok () := rfl
  have hmerge : rotaSchema.merge leadSchema = .ok crewSchema :=
    (merge_eq_mergeRows hrota.linked hlead.linked).trans rfl
  exact ⟨hrota, hlead, hverify, hverify', hmerge,
    verify_of_merge hrota hlead hverify hverify' hmerge⟩

end Schema

end Conform
