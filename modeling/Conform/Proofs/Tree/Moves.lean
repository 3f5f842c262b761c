import Conform.Proofs.Tree.Reachable
import Conform.Proofs.Tree.Transfers
/-!
# Moving as detaching and grafting

Moving a node changes two lists of children and one link to a parent.
Detaching it and grafting what was detached numbers all its nodes afresh. The
trees that result have the same nodes at the same places: walked side by side
from the root they differ only in the numbers at and below the moved node.
-/

namespace Conform

universe u v

/-- Rows of one shape whose labels are related place by place. -/
inductive Forest.Matched {α : Type u} {β : Type v} (related : α → β → Prop) :
    Forest α → Forest β → Prop
  | nil : Matched related .nil .nil
  | cons {root : α} {other : β} {below rest : Forest α} {otherBelow otherRest : Forest β}
      (roots : related root other) (down : Matched related below otherBelow)
      (right : Matched related rest otherRest) :
      Matched related (.cons root below rest) (.cons other otherBelow otherRest)

theorem Forest.matched_of_map_eq {α : Type u} {β : Type v} {γ : Type*} {related : α → β → Prop}
    {first : α → γ} {second : β → γ} {forest : Forest α} {other : Forest β}
    (h : forest.map first = other.map second)
    (hrelated : ∀ label ∈ forest.preorder, ∀ label', first label = second label' →
      related label label') : forest.Matched related other := by
  induction forest generalizing other with
  | nil =>
    cases other with
    | nil => exact .nil
    | cons => cases h
  | cons root below rest ihbelow ihrest =>
    cases other with
    | nil => cases h
    | cons root' below' rest' =>
      simp only [map, cons.injEq] at h
      simp only [preorder, List.mem_cons, List.mem_append] at hrelated
      apply Matched.cons
      · exact hrelated root (.inl rfl) root' h.1
      · exact ihbelow h.2.1 fun label hlabel => hrelated label (.inr (.inl hlabel))
      · exact ihrest h.2.2 fun label hlabel => hrelated label (.inr (.inr hlabel))

theorem Forest.Matched.append {α : Type u} {β : Type v} {related : α → β → Prop}
    {forest right : Forest α} {other otherRight : Forest β} (h : forest.Matched related other)
    (hright : right.Matched related otherRight) :
    (forest.append right).Matched related (other.append otherRight) := by
  induction h with
  | nil => exact hright
  | cons roots down _ _ ihright => exact .cons roots down ihright

namespace Tree

variable {P : Type u} {tree changed : Tree P}

theorem Spans.append {ids others : List NodeId} {forest right : Forest (NodeId × Node P)}
    (h : tree.Spans ids forest) (hright : tree.Spans others right) :
    tree.Spans (ids ++ others) (forest.append right) := by
  induction h with
  | nil => exact hright
  | cons found down _ _ ihright => exact .cons found down ihright

/-! ## Nodes that stay -/

theorem Line.congr {id : NodeId} {line : List NodeId} (h : tree.Line id line)
    (hlinks : ∀ ancestor ∈ line, changed.parent? ancestor = tree.parent? ancestor) :
    changed.Line id line := by
  induction h with
  | root => exact .root
  | child link _ ih =>
    apply Line.child
    · rw [hlinks _ List.mem_cons_self, link]
    · exact ih fun ancestor hancestor => hlinks ancestor (List.mem_cons_of_mem _ hancestor)

/-- The node is in a changed tree with its number, its label and its way up to the root. -/
structure Stays (tree changed : Tree P) (id : NodeId) : Prop where
  contains : changed.contains id = true
  label? : changed.label? id = tree.label? id
  lineage : changed.lineage id = tree.lineage id

theorem Linked.not_isAbove_of_mem_lineage (h : tree.Linked) {id other ancestor : NodeId}
    (hother : tree.contains other = true) (houtside : ¬tree.isAbove id other = true)
    (hancestor : ancestor ∈ tree.lineage other) : ¬tree.isAbove id ancestor = true := by
  intro habove
  apply houtside
  apply h.isAbove_trans hother habove
  rwa [isAbove, List.contains_iff_mem]

theorem Linked.lineage_congr (h : tree.Linked) (hchanged : changed.Linked) {id other : NodeId}
    (hother : tree.contains other = true) (houtside : ¬tree.isAbove id other = true)
    (hlinks : ∀ node, tree.contains node = true → ¬tree.isAbove id node = true →
      changed.parent? node = tree.parent? node) :
    changed.lineage other = tree.lineage other := by
  have hline := h.line_lineage hother
  apply hchanged.lineage_of_line
  apply hline.congr
  intro ancestor hancestor
  apply hlinks
  · exact hline.contains_of_mem h.contains_root hancestor
  · exact h.not_isAbove_of_mem_lineage hother houtside hancestor

/-! ## Two ways to move -/

/-- The tree in which the subtree of a node has been planted anew below another parent. -/
def regraft (tree : Tree P) (id parent : NodeId) (outline : Outline P) : Tree P :=
  ((tree.prune id).graft parent (ofOutline outline)).1

/-- Nodes with the same label, and the same number unless the first is at or below a given node. -/
def SameButBelow (tree : Tree P) (id : NodeId) (entry other : NodeId × Node P) : Prop :=
  entry.2.toLabel = other.2.toLabel ∧ (¬tree.isAbove id entry.1 = true → entry.1 = other.1)

section Move

variable {id parent other : NodeId} {outline : Outline P}

theorem Linked.ne_of_not_isAbove (h : tree.Linked) (hid : tree.contains id = true)
    (houtside : ¬tree.isAbove id other = true) : other ≠ id := by
  rintro rfl
  exact houtside (h.isAbove_self hid)

namespace Linked

theorem stays_relink (h : tree.Linked) (hmovable : tree.Movable id parent)
    (hother : tree.contains other = true) (houtside : ¬tree.isAbove id other = true) :
    tree.Stays (tree.relink id parent) other where
  contains := by rwa [contains_relink]
  label? := label?_relink tree id parent other
  lineage := by
    apply h.lineage_congr (h.relink hmovable) hother houtside
    intro node _ hnot
    rw [parent?_relink hmovable.contains_id, if_neg (h.ne_of_not_isAbove hmovable.contains_id hnot)]

theorem contains_parent_prune (h : tree.Linked) (hmovable : tree.Movable id parent) :
    (tree.prune id).contains parent = true :=
  (h.contains_prune_iff hmovable.contains_id parent).mpr
    ⟨hmovable.contains_parent, hmovable.not_isAbove⟩

theorem graft_prune (h : tree.Linked) (hmovable : tree.Movable id parent) (outline : Outline P) :
    (tree.prune id).graft parent (ofOutline outline) =
      (tree.regraft id parent outline, .ok tree.bound) := by
  rw [regraft, graft_eq_update (h.contains_parent_prune hmovable) (outline?_ofOutline outline),
    bound_prune]

theorem stays_regraft (h : tree.Linked) (hmovable : tree.Movable id parent)
    (outline : Outline P) (hother : tree.contains other = true) (houtside : ¬tree.isAbove id other = true) :
    tree.Stays (tree.regraft id parent outline) other := by
  have hpruned := h.contains_parent_prune hmovable
  have hroot := outline?_ofOutline outline
  have hstays : ∀ node, tree.contains node = true → ¬tree.isAbove id node = true →
      (tree.prune id).contains node = true := fun node hnode hnot =>
    (h.contains_prune_iff hmovable.contains_id node).mpr ⟨hnode, hnot⟩
  refine ⟨contains_graft hpruned hroot (hstays other hother houtside), ?_, ?_⟩
  · rw [regraft, label?_graft hpruned hroot (lt_bound_of_contains (hstays other hother houtside)),
      h.label?_prune hmovable.contains_id houtside]
  · apply h.lineage_congr ((h.prune hmovable.ne_root).graft parent _) hother houtside
    intro node hnode hnot
    rw [parent?_graft hpruned hroot (lt_bound_of_contains (hstays node hnode hnot)),
      h.parent?_prune hmovable.contains_id hnot]

theorem ne_and_isAbove_of_mem_branches (h : tree.Linked)
    (hmem : other ∈ (tree.branches (tree.children id)).numbers) :
    other ≠ id ∧ tree.isAbove id other = true := by
  obtain ⟨hother, child, hchild, habove⟩ := (h.mem_numbers_iff (h.spans_children id) other).mp hmem
  constructor
  · rintro rfl
    exact h.not_isAbove_parent ((h.mem_children_iff other child).mp hchild) habove
  · exact h.isAbove_of_isAbove_child hchild hother habove

theorem children_relink_self (h : tree.Linked) (hmovable : tree.Movable id parent) :
    (tree.relink id parent).children id = tree.children id := by
  have hself := h.isAbove_self hmovable.contains_id
  have hne : id ≠ parent := by
    rintro rfl
    exact hmovable.not_isAbove hself
  rw [h.children_relink hmovable.contains_parent, if_neg hne, List.append_nil,
    h.filter_children_of_ne]
  intro hlink
  exact h.not_isAbove_parent hlink hself

theorem spans_relink (h : tree.Linked) (hmovable : tree.Movable id parent)
    (houtline : tree.outline? id = some outline) :
    ∃ forest, (tree.relink id parent).Spans [id] forest ∧
      forest.map (·.2.toLabel) = .cons outline.root outline.below .nil ∧
      ∀ other ∈ forest.numbers, tree.isAbove id other = true := by
  obtain ⟨node, hnode⟩ := contains_iff.mp hmovable.contains_id
  obtain ⟨moved, hmoved⟩ := contains_iff.mp
    ((contains_relink tree id parent id).trans hmovable.contains_id)
  have hbelow : (tree.relink id parent).Spans moved.children
      (tree.branches (tree.children id)) := by
    rw [← children_of_find? hmoved, h.children_relink_self hmovable]
    apply (h.spans_children id).congr
    intro other hother
    obtain ⟨hne, habove⟩ := h.ne_and_isAbove_of_mem_branches hother
    apply find?_relink_of_ne hne
    · rintro rfl
      exact hmovable.not_isAbove habove
    · intro hlink
      exact h.not_isAbove_parent hlink habove
  have hlabel : moved.toLabel = node.toLabel := by
    have hsame := label?_relink tree id parent id
    rwa [label?_of_find? hmoved, label?_of_find? hnode, Option.some.injEq] at hsame
  rw [outline?_of_find? hnode, Option.some.injEq] at houtline
  refine ⟨_, .cons hmoved hbelow .nil, ?_, ?_⟩
  · rw [← houtline, ← hlabel]
    rfl
  · intro other hother
    simp only [Forest.numbers_cons, Forest.numbers_nil, List.append_nil, List.mem_cons] at hother
    rcases hother with rfl | hother
    · exact h.isAbove_self hmovable.contains_id
    · exact (h.ne_and_isAbove_of_mem_branches hother).2

theorem spans_regraft (h : tree.Linked) (hmovable : tree.Movable id parent)
    (outline : Outline P) :
    ∃ planted, (tree.regraft id parent outline).Spans [tree.bound] planted ∧
      planted.map (·.2.toLabel) = .cons outline.root outline.below .nil := by
  obtain ⟨planted, hspan, hlabels, -⟩ :=
    spans_graft (h.contains_parent_prune hmovable) (outline?_ofOutline outline)
  rw [bound_prune] at hspan
  exact ⟨planted, hspan, hlabels⟩

/-- Outside the moved node both ways leave the same children, of which one may be numbered anew. -/
theorem children_regraft (h : tree.Linked) (hmovable : tree.Movable id parent)
    (hother : tree.contains other = true) (houtside : ¬tree.isAbove id other = true) :
    (tree.regraft id parent outline).children other =
      ((tree.relink id parent).children other).map
        fun child => if child = id then tree.bound else child := by
  have hstays := (h.contains_prune_iff hmovable.contains_id other).mpr ⟨hother, houtside⟩
  have hkept : ∀ child ∈ (tree.children other).filter (· != id),
      (if child = id then tree.bound else child) = child := by
    intro child hchild
    rw [List.mem_filter, bne_iff_ne] at hchild
    rw [if_neg hchild.2]
  rw [regraft, children_graft (h.contains_parent_prune hmovable) (outline?_ofOutline outline)
    (lt_bound_of_contains hstays), h.children_prune hmovable.contains_id houtside, bound_prune,
    h.children_relink hmovable.contains_parent, List.map_append, List.map_congr_left hkept,
    List.map_id']
  by_cases heq : other = parent <;> simp [heq]

theorem outside_of_mem_children (h : tree.Linked) (hmovable : tree.Movable id parent)
    (houtside : ¬tree.isAbove id other = true) {child : NodeId}
    (hchild : child ∈ (tree.relink id parent).children other) :
    child = id ∨ ¬tree.isAbove id child = true := by
  rw [(h.relink hmovable).mem_children_iff, parent?_relink hmovable.contains_id] at hchild
  by_cases heq : child = id
  · exact .inl heq
  · rw [if_neg heq] at hchild
    rw [h.isAbove_child_iff hchild]
    exact .inr fun habove => habove.elim (fun heq' => heq heq'.symm) houtside

theorem exists_matched_self (h : tree.Linked) (hmovable : tree.Movable id parent)
    (houtline : tree.outline? id = some outline) {forest : Forest (NodeId × Node P)}
    (hspan : (tree.relink id parent).Spans [id] forest) :
    ∃ planted, (tree.regraft id parent outline).Spans [tree.bound] planted ∧
      forest.Matched (tree.SameButBelow id) planted := by
  obtain ⟨moved, hmoved, hlabels, habove⟩ := h.spans_relink hmovable houtline
  obtain ⟨planted, hplanted, hlabels'⟩ := h.spans_regraft hmovable outline
  refine ⟨planted, hplanted, ?_⟩
  rw [hspan.unique hmoved]
  apply Forest.matched_of_map_eq (hlabels.trans hlabels'.symm)
  intro entry hentry entry' hsame
  have hbelow : tree.isAbove id entry.1 = true := habove entry.1 (List.mem_map_of_mem hentry)
  exact ⟨hsame, fun hnot => absurd hbelow hnot⟩

theorem exists_find?_regraft (h : tree.Linked) (hmovable : tree.Movable id parent)
    (outline : Outline P) (houtside : ¬tree.isAbove id other = true) {node : Node P}
    (hnode : (tree.relink id parent).find? other = some node) :
    ∃ planted, (tree.regraft id parent outline).find? other = some planted ∧
      node.toLabel = planted.toLabel ∧
      planted.children = node.children.map fun child => if child = id then tree.bound else child := by
  have hother : tree.contains other = true := by
    rw [← contains_relink tree id parent]
    exact contains_iff.mpr ⟨node, hnode⟩
  have hstays := h.stays_regraft hmovable outline hother houtside
  obtain ⟨planted, hplanted⟩ := contains_iff.mp hstays.contains
  refine ⟨planted, hplanted, ?_, ?_⟩
  · have hsame := hstays.label?.trans (h.stays_relink hmovable hother houtside).label?.symm
    rw [label?_of_find? hplanted, label?_of_find? hnode, Option.some.injEq] at hsame
    exact hsame.symm
  · rw [← children_of_find? hplanted, ← children_of_find? hnode]
    exact h.children_regraft hmovable hother houtside

/-- Rows of nodes that are the moved node or lie outside it are matched with all below them. -/
theorem exists_matched (h : tree.Linked) (hmovable : tree.Movable id parent)
    (houtline : tree.outline? id = some outline) {ids : List NodeId}
    {forest : Forest (NodeId × Node P)} (hspan : (tree.relink id parent).Spans ids forest)
    (hids : ∀ other ∈ ids, other = id ∨ ¬tree.isAbove id other = true) :
    ∃ planted, (tree.regraft id parent outline).Spans
        (ids.map fun other => if other = id then tree.bound else other) planted ∧
      forest.Matched (tree.SameButBelow id) planted := by
  induction hspan with
  | nil => exact ⟨_, .nil, .nil⟩
  | @cons other node rest below others found down right ihdown ihright =>
    obtain ⟨rights, hright, hothers⟩ :=
      ihright fun other hother => hids other (List.mem_cons_of_mem _ hother)
    rw [List.map_cons]
    by_cases hother : other = id
    · subst hother
      obtain ⟨planted, hplanted, hmatched⟩ :=
        h.exists_matched_self hmovable houtline (.cons found down .nil)
      rw [if_pos rfl]
      exact ⟨_, hplanted.append hright, hmatched.append hothers⟩
    · have houtside := (hids other List.mem_cons_self).resolve_left hother
      obtain ⟨planted, hplanted, hlabel, hchildren⟩ :=
        h.exists_find?_regraft hmovable outline houtside found
      obtain ⟨downs, hdown, hbelow⟩ := ihdown fun child hchild =>
        h.outside_of_mem_children hmovable houtside (by rwa [children_of_find? found])
      rw [← hchildren] at hdown
      rw [if_neg hother]
      exact ⟨_, .cons hplanted hdown hright, .cons ⟨hlabel, fun _ => rfl⟩ hbelow hothers⟩

end Linked

end Move

/-- Detaching a node and grafting what was detached does what moving the node does, but for the
numbers at and below it. -/
theorem detach_graft_matches_moveNode {good : P → Prop} (hreach : Reachable good tree)
    {id parent : NodeId} (hmovable : tree.Movable id parent) :
    ∃ rest part grafted new moved,
      tree.detach id = (rest, .ok part) ∧ rest.graft parent part = (grafted, .ok new) ∧
      tree.moveNode id parent = (moved, .ok ()) ∧
      (moved.branches [root]).Matched (tree.SameButBelow id) (grafted.branches [root]) ∧
      ∀ other, tree.contains other = true → ¬tree.isAbove id other = true →
        tree.Stays moved other ∧ tree.Stays grafted other := by
  have h := hreach.linked
  obtain ⟨node, hnode⟩ := contains_iff.mp hmovable.contains_id
  have houtline := outline?_of_find? hnode
  have hmoved := h.relink hmovable
  have hgrafted : (tree.regraft id parent ⟨node.toLabel, tree.labelsBelow id⟩).Linked :=
    (h.prune hmovable.ne_root).graft parent _
  obtain ⟨top, htop⟩ := contains_iff.mp hmoved.contains_root
  have hspan := hmoved.spans_singleton htop
  have hroot : ∀ other ∈ [root], other = id ∨ ¬tree.isAbove id other = true := by
    intro other hother
    rw [List.mem_singleton.mp hother, h.isAbove_root_iff]
    exact .inr hmovable.ne_root
  obtain ⟨planted, hplanted, hmatched⟩ := h.exists_matched hmovable houtline hspan hroot
  rw [List.map_singleton, if_neg (Ne.symm hmovable.ne_root)] at hplanted
  rw [← hmoved.branches_eq hspan (apart_singleton _ _),
    ← hgrafted.branches_eq hplanted (apart_singleton _ _)] at hmatched
  exact ⟨_, _, _, _, _, detach_eq hmovable.ne_root houtline, h.graft_prune hmovable _,
    moveNode_of_movable hmovable, hmatched, fun other hother houtside =>
      ⟨h.stays_relink hmovable hother houtside, h.stays_regraft hmovable _ hother houtside⟩⟩

private def house : Tree Nat :=
  ofOutline ⟨⟨some "house", 0⟩,
    .cons ⟨some "hall", 1⟩
      (.cons ⟨some "lamp", 2⟩ (.cons ⟨some "bulb", 3⟩ .nil .nil) (.cons ⟨some "rug", 4⟩ .nil .nil))
      (.cons ⟨some "attic", 5⟩ .nil .nil)⟩

theorem detach_graft_matches_moveNode_lamp :
    Reachable (fun _ => True) house ∧ house.Movable 2 1 ∧
    ∃ rest part grafted new moved,
      house.detach 2 = (rest, .ok part) ∧ rest.graft 1 part = (grafted, .ok new) ∧
      house.moveNode 2 1 = (moved, .ok ()) ∧
      moved.children 1 = [4, 2] ∧ grafted.children 1 = [4, 6] ∧
      (moved.branches [root]).Matched (house.SameButBelow 2) (grafted.branches [root]) ∧
      house.Stays moved 4 ∧ house.Stays grafted 4 := by
  have hreach : Reachable (fun _ => True) house :=
    reachable_ofOutline _ trivial fun _ _ => trivial
  have hmovable : house.Movable 2 1 := ⟨by decide, rfl, rfl, by decide⟩
  obtain ⟨rest, part, grafted, new, moved, hdetach, hgraft, hmove, hmatched, hstays⟩ :=
    detach_graft_matches_moveNode hreach hmovable
  refine ⟨hreach, hmovable, rest, part, grafted, new, moved, hdetach, hgraft, hmove, ?_, ?_,
    hmatched, hstays 4 rfl (by decide)⟩
  · cases hmove
    rfl
  · cases hdetach
    cases hgraft
    rfl

end Tree

end Conform
