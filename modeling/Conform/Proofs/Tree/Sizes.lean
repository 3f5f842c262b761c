import Conform.Proofs.Tree.Reachable
import Conform.Proofs.Tree.Transfers
/-!
# Sizes

The nodes of a tree counted. What is detached takes its nodes along and leaves
all others behind, and what is grafted brings its own: a subtree goes from one
tree to another without the loss of a node and without a second copy of one.
-/

namespace Conform.Tree

universe u

variable {P : Type u} {tree : Tree P}

theorem nodup_ids (tree : Tree P) : tree.ids.Nodup := List.nodup_range.filter _

theorem length_ids (tree : Tree P) : tree.ids.length = tree.size := by
  have hslots : tree.slots.toList = (List.range tree.bound).map tree.find? := by
    apply List.ext_getElem
    · simp [bound]
    · intro i hi _
      simp at hi
      simp [find?, hi]
  rw [ids, ← List.countP_eq_length_filter, size, ← Array.countP_toList, hslots, List.countP_map]
  rfl

theorem length_eq_size {ids : List NodeId} (hnodup : ids.Nodup)
    (hids : ∀ id, id ∈ ids ↔ tree.contains id = true) : ids.length = tree.size := by
  rw [← tree.length_ids]
  apply List.Perm.length_eq
  rw [List.perm_ext_iff_of_nodup hnodup tree.nodup_ids]
  intro id
  rw [hids, mem_ids_iff]

theorem length_le_size {ids : List NodeId} (hnodup : ids.Nodup)
    (hids : ∀ id ∈ ids, tree.contains id = true) : ids.length ≤ tree.size := by
  rw [← tree.length_ids]
  have hsub : ids ⊆ tree.ids := fun id hid => (mem_ids_iff tree id).mpr (hids id hid)
  exact (List.subperm_of_subset hnodup hsub).length_le

namespace Linked

theorem mem_numbers_root_iff (h : tree.Linked) {forest : Forest (NodeId × Node P)}
    (hspan : tree.Spans [root] forest) (id : NodeId) :
    id ∈ forest.numbers ↔ tree.contains id = true := by
  rw [h.mem_numbers_iff hspan]
  constructor
  · exact fun hid => hid.1
  · exact fun hid => ⟨hid, root, List.mem_cons_self, h.root_isAbove hid⟩

/-- A tree is as large as what its root spans. -/
theorem size_of_spans (h : tree.Linked) {forest : Forest (NodeId × Node P)}
    (hspan : tree.Spans [root] forest) : forest.size = tree.size := by
  rw [← Forest.length_numbers]
  exact length_eq_size (h.nodup_numbers hspan (apart_singleton tree root))
    (h.mem_numbers_root_iff hspan)

theorem size_of_spans_le (h : tree.Linked) {id : NodeId} {forest : Forest (NodeId × Node P)}
    (hspan : tree.Spans [id] forest) : forest.size ≤ tree.size := by
  rw [← Forest.length_numbers]
  exact length_le_size (h.nodup_numbers hspan (apart_singleton tree id)) fun _ =>
    hspan.contains_of_mem_numbers

theorem mem_numbers_singleton_iff (h : tree.Linked) {id : NodeId}
    {forest : Forest (NodeId × Node P)} (hspan : tree.Spans [id] forest) (other : NodeId) :
    other ∈ forest.numbers ↔ tree.contains other = true ∧ tree.isAbove id other = true := by
  simpa using h.mem_numbers_iff hspan other

theorem size_prune (h : tree.Linked) {id : NodeId} (hid : tree.contains id = true)
    {forest : Forest (NodeId × Node P)} (hspan : tree.Spans [id] forest) :
    (tree.prune id).size + forest.size = tree.size := by
  have hleft : (tree.ids.filter fun other => !tree.isAbove id other).length =
      (tree.prune id).size := by
    apply length_eq_size (tree.nodup_ids.filter _)
    intro other
    rw [List.mem_filter, mem_ids_iff, h.contains_prune_iff hid, Bool.not_eq_true, Bool.not_eq_true']
  have hgone : (tree.ids.filter (tree.isAbove id)).length = forest.size := by
    rw [← Forest.length_numbers]
    apply List.Perm.length_eq
    rw [List.perm_ext_iff_of_nodup (tree.nodup_ids.filter _)
      (h.nodup_numbers hspan (apart_singleton tree id))]
    intro other
    rw [List.mem_filter, mem_ids_iff, h.mem_numbers_singleton_iff hspan]
  rw [← hleft, ← hgone, ← tree.length_ids, Nat.add_comm]
  exact (List.length_eq_length_filter_add (tree.isAbove id)).symm

end Linked

/-! ## Grafted trees -/

theorem Linked.size_of_outline? (h : tree.Linked) {outline : Outline P}
    (houtline : tree.outline? root = some outline) : tree.size = outline.below.size + 1 := by
  obtain ⟨node, hnode, rfl⟩ := Option.map_eq_some_iff.mp houtline
  rw [← h.size_of_spans (h.spans_singleton hnode), labelsBelow, Forest.size_map]
  rfl

section Graft

variable {other : Tree P} {parent : NodeId} {outline : Outline P}

/-- A graft adds a node in each of the next slots and no other. -/
theorem contains_graft_iff (hparent : tree.contains parent = true)
    (houtline : other.outline? root = some outline) (id : NodeId) :
    (tree.graft parent other).1.contains id = true ↔
      tree.contains id = true ∨ id ∈ List.range' tree.bound (outline.below.size + 1) := by
  obtain ⟨planted, hspan, _, hnumbers⟩ := spans_graft hparent houtline
  by_cases hid : id < tree.bound
  · have hold : id ∉ List.range' tree.bound (outline.below.size + 1) := by
      rw [List.mem_range'_1]
      exact fun hnew => Nat.not_lt.mpr hnew.1 hid
    rw [contains_graft_of_lt hparent houtline hid]
    simp [hold]
  · constructor
    · intro hheld
      have hlt := lt_bound_of_contains hheld
      rw [bound_graft hparent houtline] at hlt
      rw [List.mem_range'_1]
      exact .inr ⟨Nat.le_of_not_lt hid, hlt⟩
    · rintro (hheld | hnew)
      · exact absurd (lt_bound_of_contains hheld) hid
      · rw [← hnumbers] at hnew
        exact hspan.contains_of_mem_numbers hnew

theorem size_graft (hparent : tree.contains parent = true)
    (houtline : other.outline? root = some outline) :
    (tree.graft parent other).1.size = tree.size + (outline.below.size + 1) := by
  have hnodup : (tree.ids ++ List.range' tree.bound (outline.below.size + 1)).Nodup := by
    rw [List.nodup_append]
    refine ⟨tree.nodup_ids, List.nodup_range', ?_⟩
    rintro id hid _ hnew rfl
    exact not_contains_of_mem_range' hnew ((mem_ids_iff tree id).mp hid)
  have hlength : (tree.ids ++ List.range' tree.bound (outline.below.size + 1)).length =
      (tree.graft parent other).1.size := by
    apply length_eq_size hnodup
    intro id
    rw [List.mem_append, mem_ids_iff, contains_graft_iff hparent houtline]
  rw [← hlength, List.length_append, tree.length_ids, List.length_range']

end Graft

/-- A detached node goes with all below it to a tree of its own, of the same labels in the same shape
and numbered in pre-order from zero; all other nodes stay, and of them only the former parent changes.
A grafted tree comes with all its nodes on new numbers, of the same labels in the same shape, and of
the nodes there were only the new parent changes. Both ways the sizes add up. -/
theorem detach_and_graft_keep_nodes {good : P → Prop} (hreach : Reachable good tree) :
    (∀ id, id ≠ root → tree.contains id = true →
      ∃ rest part forest copy, tree.detach id = (rest, .ok part) ∧
        tree.Spans [id] forest ∧ part.Spans [root] copy ∧
        copy.map (·.2.toLabel) = forest.map (·.2.toLabel) ∧
        copy.numbers = List.range part.size ∧
        (∀ other, part.contains other = true ↔ other < part.size) ∧
        (∀ other, rest.contains other = true ↔
          tree.contains other = true ∧ other ∉ forest.numbers) ∧
        (∀ other, rest.contains other = true → rest.find? other =
          if tree.parent? id = some other then (tree.find? other).map (·.dropChild id)
          else tree.find? other) ∧
        rest.size + part.size = tree.size) ∧
    ∀ (source : P → Prop) (other : Tree P), Reachable source other →
      ∀ parent, tree.contains parent = true →
      ∃ grown new forest copy, tree.graft parent other = (grown, .ok new) ∧
        other.Spans [root] forest ∧ grown.Spans [new] copy ∧
        copy.map (·.2.toLabel) = forest.map (·.2.toLabel) ∧
        copy.numbers.Nodup ∧ copy.numbers.length = other.size ∧
        (∀ id ∈ copy.numbers, ¬tree.contains id = true) ∧
        (∀ id, grown.contains id = true ↔ tree.contains id = true ∨ id ∈ copy.numbers) ∧
        (∀ id, tree.contains id = true → grown.find? id =
          if id = parent then (tree.find? id).map (·.addChild new) else tree.find? id) ∧
        grown.parent? new = some parent ∧
        grown.size = tree.size + other.size := by
  have h := hreach.linked
  constructor
  · intro id hroot hid
    obtain ⟨node, hnode⟩ := contains_iff.mp hid
    have hspan := h.spans_singleton hnode
    have houtline := outline?_of_find? hnode
    have hpart := linked_ofOutline ⟨node.toLabel, tree.labelsBelow id⟩
    obtain ⟨copy, hcopy, hlabels, hnumbers⟩ := spans_ofOutline ⟨node.toLabel, tree.labelsBelow id⟩
    have hsize := hpart.size_of_spans hcopy
    have hsame : copy.map (·.2.toLabel) =
        (Forest.cons (id, node) (tree.branches (tree.children id)) .nil).map (·.2.toLabel) := hlabels
    refine ⟨_, _, _, copy, detach_eq hroot houtline, hspan, hcopy, hsame, ?_, ?_, ?_, ?_, ?_⟩
    · rw [hnumbers, hsize]
    · intro other
      rw [← hpart.mem_numbers_root_iff hcopy, hnumbers, hsize, List.mem_range]
    · intro other
      rw [h.contains_prune_iff hid, h.mem_numbers_singleton_iff hspan]
      simp only [not_and, and_congr_right_iff]
      exact fun hother => ⟨fun houtside _ => houtside, fun houtside => houtside hother⟩
    · intro other hother
      exact h.find?_prune_of_not_isAbove hid ((h.contains_prune_iff hid other).mp hother).2
    · have hcount := congrArg Forest.size hsame
      rw [Forest.size_map, Forest.size_map, hsize] at hcount
      rw [hcount, h.size_prune hid hspan]
  · intro source other hother parent hparent
    have hother := hother.linked
    obtain ⟨node, hnode⟩ := contains_iff.mp hother.contains_root
    have houtline := outline?_of_find? hnode
    have hspan := hother.spans_singleton hnode
    have hsize := hother.size_of_outline? houtline
    have hanswer : tree.graft parent other = ((tree.graft parent other).1, .ok tree.bound) := by
      rw [graft_eq_update hparent houtline]
    obtain ⟨copy, hcopy, hlabels, hnumbers⟩ := spans_graft hparent houtline
    refine ⟨_, _, _, copy, hanswer, hspan, hcopy, hlabels, ?_, ?_, ?_, ?_, ?_, ?_, ?_⟩
    · rw [hnumbers]
      exact List.nodup_range'
    · rw [hnumbers, List.length_range', hsize]
    · intro id hid
      rw [hnumbers] at hid
      exact not_contains_of_mem_range' hid
    · intro id
      rw [contains_graft_iff hparent houtline, hnumbers]
    · intro id hid
      rw [find?_graft hparent houtline (lt_bound_of_contains hid)]
      by_cases heq : id = parent
      · rw [if_pos heq, if_pos heq, heq]
      · rw [if_neg heq, if_neg heq]
    · rw [← (h.graft parent other).mem_children_iff, children_graft hparent houtline
        (lt_bound_of_contains hparent)]
      simp
    · rw [size_graft hparent houtline, hsize]

private def library : Tree Nat :=
  ofOutline ⟨⟨some "library", 0⟩,
    .cons ⟨some "north", 1⟩
      (.cons ⟨some "atlases", 2⟩ (.cons ⟨some "coasts", 3⟩ .nil .nil) (.cons ⟨some "novels", 4⟩ .nil .nil))
      (.cons ⟨some "south", 5⟩ .nil .nil)⟩

private def gift : Tree Nat :=
  ofOutline ⟨⟨some "poems", 7⟩, .cons ⟨some "odes", 8⟩ .nil (.cons ⟨some "odes", 9⟩ .nil .nil)⟩

theorem detach_and_graft_keep_nodes_library :
    Reachable (fun _ => True) library ∧ Reachable (fun _ => True) gift ∧
    (∃ rest part, library.detach 2 = (rest, .ok part) ∧ part.size = 2 ∧
      rest.size + part.size = library.size ∧ rest.children 1 = [4] ∧
      ∀ other, part.contains other = true ↔ other < part.size) ∧
    ∃ grown copy, library.graft 5 gift = (grown, .ok 6) ∧ grown.Spans [6] copy ∧
      copy.numbers.length = gift.size ∧ (∀ id ∈ copy.numbers, ¬library.contains id = true) ∧
      grown.parent? 6 = some 5 ∧ grown.size = library.size + gift.size := by
  have hlibrary : Reachable (fun _ => True) library :=
    reachable_ofOutline _ trivial fun _ _ => trivial
  have hgift : Reachable (fun _ => True) gift := reachable_ofOutline _ trivial fun _ _ => trivial
  obtain ⟨hdetach, hgraft⟩ := detach_and_graft_keep_nodes hlibrary
  refine ⟨hlibrary, hgift, ?_, ?_⟩
  · obtain ⟨rest, part, _, _, hanswer, _, _, _, _, hpart, _, _, hsizes⟩ :=
      hdetach 2 (by decide) rfl
    refine ⟨rest, part, hanswer, ?_, hsizes, ?_, hpart⟩
    · cases hanswer
      rfl
    · cases hanswer
      rfl
  · obtain ⟨grown, new, _, copy, hanswer, _, hcopy, _, _, hlength, hfresh, _, _, hlink, hsizes⟩ :=
      hgraft _ gift hgift 5 rfl
    have hnew : (library.graft 5 gift).2 = .ok 6 := rfl
    rw [hanswer] at hnew
    cases hnew
    exact ⟨grown, copy, hanswer, hcopy, hlength, hfresh, hlink, hsizes⟩

end Conform.Tree
