import Conform.Proofs.Tree.Links
import Conform.Tree.Outline
/-!
# The rows that nodes span

The subtrees of some nodes as a forest, given as a relation that follows the
lists of children and needs no bound. In a tree whose links are in order every row of nodes
spans a forest, the bounded functions compute it, and its pre-order lists
every node below the row exactly once.
-/

namespace Conform

universe u v

namespace Forest

variable {α : Type u} {β : Type v}

def numbers (forest : Forest (NodeId × α)) : List NodeId := forest.preorder.map (·.1)

@[simp] theorem numbers_nil : numbers (.nil : Forest (NodeId × α)) = [] := rfl

@[simp] theorem numbers_cons (root : NodeId × α) (below rest : Forest (NodeId × α)) :
    numbers (.cons root below rest) = root.1 :: (numbers below ++ numbers rest) := by
  simp [numbers, preorder]

@[simp] theorem length_numbers (forest : Forest (NodeId × α)) :
    forest.numbers.length = forest.size := by
  rw [numbers, List.length_map, length_preorder]

end Forest

namespace Tree

variable {P : Type u}

/-- The forest that a row of nodes spans: their subtrees with the numbers of all nodes. -/
inductive Spans (tree : Tree P) : List NodeId → Forest (NodeId × Node P) → Prop
  | nil : Spans tree [] .nil
  | cons {id : NodeId} {node : Node P} {rest : List NodeId} {below others : Forest (NodeId × Node P)}
      (found : tree.find? id = some node) (down : Spans tree node.children below)
      (right : Spans tree rest others) : Spans tree (id :: rest) (.cons (id, node) below others)

namespace Spans

variable {tree : Tree P}

theorem forestAt_eq {ids : List NodeId} {forest : Forest (NodeId × Node P)}
    (h : tree.Spans ids forest) {steps : Nat} (hsteps : forest.size ≤ steps) :
    tree.forestAt steps ids = forest := by
  induction h generalizing steps with
  | nil => cases steps <;> rfl
  | cons found _ _ ihdown ihright =>
    cases steps with
    | zero => simp [Forest.size] at hsteps
    | succ steps =>
      rw [Forest.size] at hsteps
      simp only [forestAt, found]
      rw [ihdown (by omega), ihright (by omega)]

/-- Gathering a row first gathers what it spans and then goes on to the right. -/
theorem gather_append {ids : List NodeId} {forest : Forest (NodeId × Node P)}
    (h : tree.Spans ids forest) (rest : List NodeId) {budget : Nat}
    (hbudget : forest.size ≤ budget) :
    tree.gather budget (ids ++ rest) =
      forest.numbers ++ tree.gather (budget - forest.size) rest := by
  induction h generalizing budget rest with
  | nil => simp [Forest.size]
  | cons found _ _ ihdown ihright =>
    cases budget with
    | zero => simp [Forest.size] at hbudget
    | succ budget =>
      rw [Forest.size] at hbudget
      simp only [List.cons_append, gather, found, Forest.numbers_cons, Forest.size]
      rw [ihdown _ (by omega), ihright _ (by omega), List.append_assoc, Nat.sub_sub]
      congr 4
      omega

theorem descendants_eq {id : NodeId} {forest : Forest (NodeId × Node P)}
    (h : tree.Spans [id] forest) (hsize : forest.size ≤ tree.bound) :
    tree.descendants id = forest.numbers := by
  have hgather := h.gather_append [] hsize
  rw [List.append_nil] at hgather
  rw [descendants, hgather]
  cases tree.bound - forest.size <;> simp [gather]

theorem congr (other : Tree P) {ids : List NodeId} {forest : Forest (NodeId × Node P)}
    (h : tree.Spans ids forest)
    (hsame : ∀ id ∈ forest.numbers, other.find? id = tree.find? id) : other.Spans ids forest := by
  induction h with
  | nil => exact .nil
  | cons found _ _ ihdown ihright =>
    refine .cons ?_ (ihdown fun id hid => hsame id ?_) (ihright fun id hid => hsame id ?_)
    · rw [hsame _ (by simp), found]
    · simp [hid]
    · simp [hid]

theorem find?_of_mem {ids : List NodeId} {forest : Forest (NodeId × Node P)}
    (h : tree.Spans ids forest) {id : NodeId} {node : Node P}
    (hmem : (id, node) ∈ forest.preorder) : tree.find? id = some node := by
  induction h with
  | nil => simp [Forest.preorder] at hmem
  | cons found _ _ ihdown ihright =>
    simp only [Forest.preorder, List.mem_cons, List.mem_append, Prod.mk.injEq] at hmem
    rcases hmem with ⟨rfl, rfl⟩ | hmem | hmem
    · exact found
    · exact ihdown hmem
    · exact ihright hmem

theorem contains_of_mem_numbers {ids : List NodeId} {forest : Forest (NodeId × Node P)}
    (h : tree.Spans ids forest) {id : NodeId} (hmem : id ∈ forest.numbers) :
    tree.contains id = true := by
  obtain ⟨⟨_, node⟩, hnode, rfl⟩ := List.mem_map.mp hmem
  exact contains_iff.mpr ⟨node, h.find?_of_mem hnode⟩

end Spans

/-- Different members of a row have no node below them in common. -/
def Apart (tree : Tree P) (ids : List NodeId) : Prop :=
  ids.Pairwise fun first second => ∀ id, tree.contains id = true →
    tree.isAbove first id = true → ¬tree.isAbove second id = true

theorem apart_singleton (tree : Tree P) (id : NodeId) : tree.Apart [id] :=
  List.pairwise_singleton _ _

namespace Linked

variable {tree : Tree P}

theorem exists_spans (h : tree.Linked) {ids : List NodeId}
    (hids : ∀ id ∈ ids, tree.contains id = true) : ∃ forest, tree.Spans ids forest := by
  have hrow : ∀ ids : List NodeId, (∀ id ∈ ids, tree.contains id = true) →
      (∀ id ∈ ids, ∃ below, tree.Spans (tree.children id) below) →
      ∃ forest, tree.Spans ids forest := by
    intro ids hids hbelow
    induction ids with
    | nil => exact ⟨_, .nil⟩
    | cons id rest ih =>
      obtain ⟨node, hnode⟩ := contains_iff.mp (hids id List.mem_cons_self)
      obtain ⟨below, hdown⟩ := hbelow id List.mem_cons_self
      obtain ⟨others, hright⟩ := ih (fun id hid => hids id (List.mem_cons_of_mem _ hid))
        (fun id hid => hbelow id (List.mem_cons_of_mem _ hid))
      rw [children_of_find? hnode] at hdown
      exact ⟨_, .cons hnode hdown hright⟩
  have hdown : ∀ id, tree.contains id = true →
      ∃ below, tree.Spans (tree.children id) below := fun id hid =>
    h.down_induction (motive := fun id => ∃ below, tree.Spans (tree.children id) below)
      (fun id _ ih => hrow _ (fun _ hchild => h.contains_child hchild) ih) hid
  exact hrow ids hids fun id hid => hdown id (hids id hid)

theorem eq_or_isAbove_child (h : tree.Linked) {ancestor id : NodeId}
    (hid : tree.contains id = true) (habove : tree.isAbove ancestor id = true) :
    id = ancestor ∨ ∃ child ∈ tree.children ancestor, tree.isAbove child id = true := by
  revert habove
  refine h.up_induction (motive := fun id => tree.isAbove ancestor id = true →
    id = ancestor ∨ ∃ child ∈ tree.children ancestor, tree.isAbove child id = true) ?_ ?_ hid
  · intro habove
    exact .inl (h.isAbove_root_iff.mp habove).symm
  · intro id parent hlink ih habove
    rcases (h.isAbove_child_iff hlink).mp habove with heq | habove
    · exact .inl heq.symm
    · rcases ih habove with rfl | ⟨child, hchild, hbelow⟩
      · exact .inr ⟨id, (h.mem_children_iff _ _).mpr hlink,
          h.isAbove_self (contains_of_parent? hlink)⟩
      · exact .inr ⟨child, hchild, (h.isAbove_child_iff hlink).mpr (.inr hbelow)⟩

theorem isAbove_of_isAbove_child (h : tree.Linked) {id child other : NodeId}
    (hchild : child ∈ tree.children id) (hother : tree.contains other = true)
    (habove : tree.isAbove child other = true) : tree.isAbove id other = true := by
  have hlink := (h.mem_children_iff id child).mp hchild
  have hstep : tree.isAbove id child = true :=
    (h.isAbove_child_iff hlink).mpr (.inr (h.isAbove_self (h.contains_parent hlink)))
  exact h.isAbove_trans hother hstep habove

theorem mem_numbers_iff (h : tree.Linked) {ids : List NodeId}
    {forest : Forest (NodeId × Node P)} (hspan : tree.Spans ids forest) (id : NodeId) :
    id ∈ forest.numbers ↔
      tree.contains id = true ∧ ∃ top ∈ ids, tree.isAbove top id = true := by
  induction hspan with
  | nil => simp
  | @cons top node rest below others found _ _ ihdown ihright =>
    have hchildren := children_of_find? found
    have htop : tree.contains top = true := contains_iff.mpr ⟨node, found⟩
    rw [Forest.numbers_cons, List.mem_cons, List.mem_append, ihdown, ihright]
    constructor
    · rintro (rfl | ⟨hid, child, hchild, habove⟩ | ⟨hid, other, hother, habove⟩)
      · exact ⟨htop, _, List.mem_cons_self, h.isAbove_self htop⟩
      · rw [← hchildren] at hchild
        exact ⟨hid, top, List.mem_cons_self, h.isAbove_of_isAbove_child hchild hid habove⟩
      · exact ⟨hid, other, List.mem_cons_of_mem _ hother, habove⟩
    · rintro ⟨hid, other, hother, habove⟩
      rcases List.mem_cons.mp hother with rfl | hother
      · rcases h.eq_or_isAbove_child hid habove with heq | ⟨child, hchild, hbelow⟩
        · exact .inl heq
        · rw [hchildren] at hchild
          exact .inr (.inl ⟨hid, child, hchild, hbelow⟩)
      · exact .inr (.inr ⟨hid, other, hother, habove⟩)

theorem apart_children (h : tree.Linked) (id : NodeId) : tree.Apart (tree.children id) := by
  refine List.Pairwise.imp_of_mem ?_ (h.nodup_children id)
  intro first second hfirst hsecond hne other hother habove habove'
  exact hne (h.eq_of_isAbove_of_siblings ((h.mem_children_iff _ _).mp hfirst)
    ((h.mem_children_iff _ _).mp hsecond) hother habove habove')

theorem nodup_numbers (h : tree.Linked) {ids : List NodeId}
    {forest : Forest (NodeId × Node P)} (hspan : tree.Spans ids forest)
    (hapart : tree.Apart ids) : forest.numbers.Nodup := by
  induction hspan with
  | nil => exact List.nodup_nil
  | @cons top node rest below others found down right ihdown ihright =>
    have hchildren := children_of_find? found
    have htop : tree.contains top = true := contains_iff.mpr ⟨node, found⟩
    obtain ⟨hhead, hrest⟩ := List.pairwise_cons.mp hapart
    have hbelow : ∀ id ∈ below.numbers, tree.isAbove top id = true := by
      intro id hid
      obtain ⟨hid, child, hchild, habove⟩ := (h.mem_numbers_iff down _).mp hid
      rw [← hchildren] at hchild
      exact h.isAbove_of_isAbove_child hchild hid habove
    have hright : ∀ id ∈ others.numbers, ¬tree.isAbove top id = true := by
      intro id hid habove
      obtain ⟨hid, other, hother, habove'⟩ := (h.mem_numbers_iff right _).mp hid
      exact hhead other hother id hid habove habove'
    rw [Forest.numbers_cons, List.nodup_cons, List.mem_append, List.nodup_append]
    refine ⟨?_, ihdown (hchildren ▸ h.apart_children top), ihright hrest, ?_⟩
    · rintro (hmem | hmem)
      · obtain ⟨-, child, hchild, habove⟩ := (h.mem_numbers_iff down _).mp hmem
        rw [← hchildren] at hchild
        have hlink := (h.mem_children_iff top child).mp hchild
        exact h.not_isAbove_parent hlink habove
      · exact hright top hmem (h.isAbove_self htop)
    · intro id hid other hother heq
      subst heq
      exact hright id hother (hbelow id hid)

theorem size_le_bound (h : tree.Linked) {ids : List NodeId}
    {forest : Forest (NodeId × Node P)} (hspan : tree.Spans ids forest)
    (hapart : tree.Apart ids) : forest.size ≤ tree.bound := by
  rw [← Forest.length_numbers]
  exact length_le_bound (h.nodup_numbers hspan hapart) fun _ => hspan.contains_of_mem_numbers

theorem branches_eq (h : tree.Linked) {ids : List NodeId}
    {forest : Forest (NodeId × Node P)} (hspan : tree.Spans ids forest)
    (hapart : tree.Apart ids) : tree.branches ids = forest :=
  hspan.forestAt_eq (h.size_le_bound hspan hapart)

theorem spans_children (h : tree.Linked) (id : NodeId) :
    tree.Spans (tree.children id) (tree.branches (tree.children id)) := by
  obtain ⟨forest, hspan⟩ := h.exists_spans fun child (hchild : child ∈ tree.children id) =>
    h.contains_child hchild
  rwa [h.branches_eq hspan (h.apart_children id)]

theorem spans_singleton (h : tree.Linked) {id : NodeId} {node : Node P}
    (hnode : tree.find? id = some node) :
    tree.Spans [id] (.cons (id, node) (tree.branches (tree.children id)) .nil) := by
  refine .cons hnode ?_ .nil
  rw [← children_of_find? hnode]
  exact h.spans_children id

theorem descendants_eq (h : tree.Linked) {id : NodeId} {node : Node P}
    (hnode : tree.find? id = some node) :
    tree.descendants id = id :: (tree.branches (tree.children id)).numbers := by
  have hspan := h.spans_singleton hnode
  rw [hspan.descendants_eq (h.size_le_bound hspan (apart_singleton tree id))]
  simp

/-- The nodes gathered from a node on are those at and below it. -/
theorem mem_descendants_iff (h : tree.Linked) {id : NodeId} (hid : tree.contains id = true)
    (other : NodeId) :
    other ∈ tree.descendants id ↔
      tree.contains other = true ∧ tree.isAbove id other = true := by
  obtain ⟨node, hnode⟩ := contains_iff.mp hid
  have hmem := h.mem_numbers_iff (h.spans_singleton hnode) other
  rw [h.descendants_eq hnode]
  simpa using hmem

theorem nodup_descendants (h : tree.Linked) {id : NodeId} (hid : tree.contains id = true) :
    (tree.descendants id).Nodup := by
  obtain ⟨node, hnode⟩ := contains_iff.mp hid
  have hnodup := h.nodup_numbers (h.spans_singleton hnode) (apart_singleton tree id)
  rw [h.descendants_eq hnode]
  simpa using hnodup

end Linked

end Tree

end Conform
