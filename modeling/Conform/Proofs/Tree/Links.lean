import Mathlib.Data.List.Nodup
import Mathlib.Data.List.Perm.Subperm
import Conform.Proofs.Tree.Lookup
/-!
# Links

The links of a tree are in order when the root has no parent, both sides of
every link agree, and the links to parents lead from every node to the root.
Such a tree has no cycle: the way up from a node passes no node twice, so the
number of slots bounds it. Read from the root downward, exactly one chain of
children leads to every node.
-/

namespace Conform.Tree

universe u

variable {P : Type u}

theorem length_le_bound {tree : Tree P} {ids : List NodeId} (hnodup : ids.Nodup)
    (hids : ∀ id ∈ ids, tree.contains id = true) : ids.length ≤ tree.bound := by
  have hsub : ids ⊆ List.range tree.bound := fun id hid =>
    List.mem_range.mpr (lt_bound_of_contains (hids id hid))
  have hle := (List.subperm_of_subset hnodup hsub).length_le
  rwa [List.length_range] at hle

/-! ## Ways upward -/

/-- Nodes each of which has the next as its parent. -/
def Upward (tree : Tree P) (way : List NodeId) : Prop :=
  way.IsChain fun id parent => tree.parent? id = some parent

/-- The way upward from a node that ends at a node without a parent. -/
inductive Summit (tree : Tree P) : NodeId → List NodeId → Prop
  | top {id : NodeId} (link : tree.parent? id = none) : Summit tree id [id]
  | child {id parent : NodeId} {way : List NodeId} (link : tree.parent? id = some parent)
      (up : Summit tree parent way) : Summit tree id (id :: way)

theorem upward_climb (tree : Tree P) (steps : Nat) (id : NodeId) :
    tree.Upward (tree.climb steps id) := by
  induction steps generalizing id with
  | zero => exact .nil
  | succ steps ih =>
    rw [climb]
    cases hlink : tree.parent? id with
    | none => exact .singleton id
    | some parent =>
      cases steps with
      | zero => exact .singleton id
      | succ steps => exact .cons_cons hlink (ih parent)

theorem Upward.length_le {tree : Tree P} {way : List NodeId} (h : tree.Upward way)
    (hnodup : way.Nodup) : way.length ≤ tree.bound + 1 := by
  have hcount : way.length ≤ (way.filter tree.contains).length + 1 := by
    clear hnodup
    induction h with
    | nil => simp
    | singleton id => simp
    | cons_cons link _ ih =>
      rw [List.filter_cons_of_pos (contains_of_parent? link)]
      simp only [List.length_cons] at ih ⊢
      omega
  have hheld : (way.filter tree.contains).length ≤ tree.bound :=
    length_le_bound (hnodup.filter _) fun id hid => (List.mem_filter.mp hid).2
  omega

namespace Summit

variable {tree : Tree P}

theorem upward {id : NodeId} {way : List NodeId} (h : tree.Summit id way) : tree.Upward way := by
  induction h with
  | top => exact .singleton _
  | child link up ih =>
    cases up with
    | top => exact .cons_cons link ih
    | child => exact .cons_cons link ih

theorem unique {id : NodeId} {way other : List NodeId} (h : tree.Summit id way)
    (hother : tree.Summit id other) : way = other := by
  induction h generalizing other with
  | top link =>
    cases hother with
    | top => rfl
    | child link' _ => rw [link] at link'; cases link'
  | child link _ ih =>
    cases hother with
    | top link' => rw [link] at link'; cases link'
    | child link' up' =>
      rw [link] at link'
      cases link'
      rw [ih up']

theorem suffix_of_mem {id ancestor : NodeId} {way : List NodeId} (h : tree.Summit id way)
    (hmem : ancestor ∈ way) : ∃ rest, tree.Summit ancestor rest ∧ rest <:+ way := by
  induction h with
  | top link =>
    rw [List.mem_singleton] at hmem
    subst hmem
    exact ⟨_, .top link, List.suffix_rfl⟩
  | child link up ih =>
    rcases List.mem_cons.mp hmem with rfl | hmem
    · exact ⟨_, .child link up, List.suffix_rfl⟩
    · obtain ⟨rest, hrest, hsuffix⟩ := ih hmem
      exact ⟨rest, hrest, hsuffix.trans (List.suffix_cons _ _)⟩

theorem nodup {id : NodeId} {way : List NodeId} (h : tree.Summit id way) : way.Nodup := by
  induction h with
  | top => exact List.nodup_singleton _
  | child link up ih =>
    refine List.nodup_cons.mpr ⟨fun hmem => ?_, ih⟩
    obtain ⟨rest, hrest, hsuffix⟩ := up.suffix_of_mem hmem
    have hle := hsuffix.length_le
    rw [hrest.unique (.child link up), List.length_cons] at hle
    omega

theorem climb_eq {id : NodeId} {way : List NodeId} (h : tree.Summit id way) (steps : Nat) :
    tree.climb steps id = way.take steps := by
  induction h generalizing steps with
  | top link =>
    cases steps with
    | zero => rfl
    | succ steps => simp [climb, link]
  | child link _ ih =>
    cases steps with
    | zero => rfl
    | succ steps => simp [climb, link, ih]

theorem of_length_climb_lt {steps : Nat} {id : NodeId}
    (h : (tree.climb steps id).length < steps) : tree.Summit id (tree.climb steps id) := by
  induction steps generalizing id with
  | zero => simp at h
  | succ steps ih =>
    rw [climb] at h ⊢
    cases hlink : tree.parent? id with
    | none => exact .top hlink
    | some parent =>
      simp only [hlink, List.length_cons] at h
      exact .child hlink (ih (by omega))

/-- Every way upward from the same node is a first part of the one that ends. -/
theorem isPrefix {id : NodeId} {way rest : List NodeId} (h : tree.Summit id way)
    (hrest : tree.Upward (id :: rest)) : id :: rest <+: way := by
  induction h generalizing rest with
  | top link =>
    cases hrest with
    | singleton => exact List.prefix_rfl
    | cons_cons link' _ => rw [link] at link'; cases link'
  | child link _ ih =>
    rw [List.cons_prefix_cons]
    refine ⟨rfl, ?_⟩
    cases hrest with
    | singleton => exact List.nil_prefix
    | cons_cons link' hrest =>
      rw [link] at link'
      cases link'
      exact ih hrest

end Summit

/-! ## Ways to the root -/

/-- A node from which the links to parents lead to the root. -/
inductive Rooted (tree : Tree P) : NodeId → Prop
  | root : Rooted tree Tree.root
  | child {id parent : NodeId} (link : tree.parent? id = some parent) (up : Rooted tree parent) :
      Rooted tree id

/-- The links of a tree are in order. -/
structure Linked (tree : Tree P) : Prop where
  contains_root : tree.contains root = true
  parent?_root : tree.parent? root = none
  nodup_children (id : NodeId) : (tree.children id).Nodup
  mem_children_iff (id child : NodeId) :
    child ∈ tree.children id ↔ tree.parent? child = some id
  rooted {id : NodeId} (h : tree.contains id = true) : tree.Rooted id

/-- The node and its ancestors up to the root, when the links to parents lead there. -/
inductive Line (tree : Tree P) : NodeId → List NodeId → Prop
  | root : Line tree Tree.root [Tree.root]
  | child {id parent : NodeId} {line : List NodeId} (link : tree.parent? id = some parent)
      (up : Line tree parent line) : Line tree id (id :: line)

namespace Line

variable {tree : Tree P}

theorem of_rooted {id : NodeId} (h : tree.Rooted id) : ∃ line, tree.Line id line := by
  induction h with
  | root => exact ⟨[Tree.root], .root⟩
  | child link _ ih =>
    obtain ⟨line, hline⟩ := ih
    exact ⟨_, .child link hline⟩

theorem mem_self {id : NodeId} {line : List NodeId} (h : tree.Line id line) : id ∈ line := by
  cases h with
  | root => exact List.mem_cons_self
  | child _ _ => exact List.mem_cons_self

theorem summit (hroot : tree.parent? Tree.root = none) {id : NodeId} {line : List NodeId}
    (h : tree.Line id line) : tree.Summit id line := by
  induction h with
  | root => exact .top hroot
  | child link _ ih => exact .child link ih

theorem unique (hroot : tree.parent? Tree.root = none) {id : NodeId} {line other : List NodeId}
    (h : tree.Line id line) (hother : tree.Line id other) : line = other :=
  (h.summit hroot).unique (hother.summit hroot)

theorem suffix_of_mem {id ancestor : NodeId} {line : List NodeId} (h : tree.Line id line)
    (hmem : ancestor ∈ line) : ∃ rest, tree.Line ancestor rest ∧ rest <:+ line := by
  induction h with
  | root =>
    rw [List.mem_singleton] at hmem
    subst hmem
    exact ⟨_, .root, List.suffix_rfl⟩
  | child link up ih =>
    rcases List.mem_cons.mp hmem with rfl | hmem
    · exact ⟨_, .child link up, List.suffix_rfl⟩
    · obtain ⟨rest, hrest, hsuffix⟩ := ih hmem
      exact ⟨rest, hrest, hsuffix.trans (List.suffix_cons _ _)⟩

theorem nodup (hroot : tree.parent? Tree.root = none) {id : NodeId} {line : List NodeId}
    (h : tree.Line id line) : line.Nodup :=
  (h.summit hroot).nodup

theorem contains_of_mem (hroot : tree.contains Tree.root = true) {id ancestor : NodeId}
    {line : List NodeId} (h : tree.Line id line) (hmem : ancestor ∈ line) :
    tree.contains ancestor = true := by
  obtain ⟨_, hrest, -⟩ := h.suffix_of_mem hmem
  cases hrest with
  | root => exact hroot
  | child link _ => exact contains_of_parent? link

theorem climb_eq (hroot : tree.parent? Tree.root = none) {id : NodeId} {line : List NodeId}
    (h : tree.Line id line) (steps : Nat) : tree.climb steps id = line.take steps :=
  (h.summit hroot).climb_eq steps

end Line

namespace Linked

variable {tree : Tree P}

theorem length_line_le (h : tree.Linked) {id : NodeId} {line : List NodeId}
    (hline : tree.Line id line) : line.length ≤ tree.bound :=
  length_le_bound (hline.nodup h.parent?_root) fun _ =>
    hline.contains_of_mem h.contains_root

theorem lineage_of_line (h : tree.Linked) {id : NodeId} {line : List NodeId}
    (hline : tree.Line id line) : tree.lineage id = line := by
  rw [lineage, hline.climb_eq h.parent?_root, List.take_of_length_le (h.length_line_le hline)]

theorem line_lineage (h : tree.Linked) {id : NodeId} (hid : tree.contains id = true) :
    tree.Line id (tree.lineage id) := by
  obtain ⟨line, hline⟩ := Line.of_rooted (h.rooted hid)
  rwa [h.lineage_of_line hline]

theorem lineage_root (h : tree.Linked) : tree.lineage root = [root] :=
  h.lineage_of_line .root

theorem contains_parent (h : tree.Linked) {id parent : NodeId}
    (hlink : tree.parent? id = some parent) : tree.contains parent = true :=
  contains_of_mem_children ((h.mem_children_iff parent id).mpr hlink)

theorem contains_child (h : tree.Linked) {id child : NodeId}
    (hmem : child ∈ tree.children id) : tree.contains child = true :=
  contains_of_parent? ((h.mem_children_iff id child).mp hmem)

theorem filter_children_of_ne (h : tree.Linked) {id other : NodeId}
    (hlink : tree.parent? id ≠ some other) :
    (tree.children other).filter (· != id) = tree.children other := by
  apply List.filter_eq_self.mpr
  intro child hchild
  rw [bne_iff_ne]
  rintro rfl
  exact hlink ((h.mem_children_iff other child).mp hchild)

theorem lineage_child (h : tree.Linked) {id parent : NodeId}
    (hlink : tree.parent? id = some parent) : tree.lineage id = id :: tree.lineage parent :=
  h.lineage_of_line (.child hlink (h.line_lineage (h.contains_parent hlink)))

theorem resolve?_root (h : tree.Linked) (path : Path) :
    tree.resolve? root path = tree.follow? root path.segments := by
  rw [resolve?, if_pos h.contains_root]

theorem ne_root_of_parent? (h : tree.Linked) {id parent : NodeId}
    (hlink : tree.parent? id = some parent) : id ≠ root := by
  intro heq
  rw [heq, h.parent?_root] at hlink
  cases hlink

theorem exists_parent (h : tree.Linked) {id : NodeId} (hid : tree.contains id = true)
    (hne : id ≠ root) : ∃ parent, tree.parent? id = some parent := by
  cases h.rooted hid with
  | root => exact absurd rfl hne
  | child link _ => exact ⟨_, link⟩

/-- A property of the root that passes from every parent to its children holds of all nodes. -/
theorem up_induction (h : tree.Linked) {motive : NodeId → Prop} (base : motive root)
    (step : ∀ id parent, tree.parent? id = some parent → motive parent → motive id) {id : NodeId}
    (hid : tree.contains id = true) : motive id := by
  induction h.rooted hid with
  | root => exact base
  | child link _ ih => exact step _ _ link (ih (h.contains_parent link))

/-- A property that passes from all children of a node to the node holds of all nodes. -/
theorem down_induction (h : tree.Linked) {motive : NodeId → Prop}
    (step : ∀ id, tree.contains id = true → (∀ child ∈ tree.children id, motive child) →
      motive id) {id : NodeId} (hid : tree.contains id = true) : motive id := by
  suffices hroom : ∀ room id, tree.contains id = true →
      tree.bound ≤ (tree.lineage id).length + room → motive id from
    hroom tree.bound id hid (Nat.le_add_left _ _)
  intro room
  induction room with
  | zero =>
    intro id hid hle
    refine step id hid fun child hmem => ?_
    have hlink := (h.mem_children_iff id child).mp hmem
    have hbound := h.length_line_le (h.line_lineage (contains_of_parent? hlink))
    rw [h.lineage_child hlink, List.length_cons] at hbound
    omega
  | succ room ih =>
    intro id hid hle
    refine step id hid fun child hmem => ?_
    have hlink := (h.mem_children_iff id child).mp hmem
    apply ih child (contains_of_parent? hlink)
    rw [h.lineage_child hlink, List.length_cons]
    omega

/-! ## Ancestors -/

theorem isAbove_root_iff (h : tree.Linked) {ancestor : NodeId} :
    tree.isAbove ancestor root = true ↔ ancestor = root := by
  rw [isAbove, h.lineage_root, List.contains_iff_mem, List.mem_singleton]

theorem isAbove_child_iff (h : tree.Linked) {ancestor id parent : NodeId}
    (hlink : tree.parent? id = some parent) :
    tree.isAbove ancestor id = true ↔ ancestor = id ∨ tree.isAbove ancestor parent = true := by
  rw [isAbove, isAbove, h.lineage_child hlink, List.contains_iff_mem, List.contains_iff_mem,
    List.mem_cons]

theorem isAbove_self (h : tree.Linked) {id : NodeId} (hid : tree.contains id = true) :
    tree.isAbove id id = true := by
  rw [isAbove, List.contains_iff_mem]
  exact (h.line_lineage hid).mem_self

theorem root_isAbove (h : tree.Linked) {id : NodeId} (hid : tree.contains id = true) :
    tree.isAbove root id = true := by
  refine h.up_induction (motive := fun id => tree.isAbove root id = true) ?_ ?_ hid
  · exact h.isAbove_root_iff.mpr rfl
  · intro id parent hlink hparent
    exact (h.isAbove_child_iff hlink).mpr (.inr hparent)

theorem isAbove_trans (h : tree.Linked) {top middle id : NodeId}
    (hid : tree.contains id = true) (htop : tree.isAbove top middle = true)
    (hmiddle : tree.isAbove middle id = true) : tree.isAbove top id = true := by
  revert hmiddle
  refine h.up_induction
    (motive := fun id => tree.isAbove middle id = true → tree.isAbove top id = true) ?_ ?_ hid
  · intro hmiddle
    rwa [h.isAbove_root_iff.mp hmiddle] at htop
  · intro id parent hlink hparent hmiddle
    rcases (h.isAbove_child_iff hlink).mp hmiddle with rfl | hmiddle
    · exact htop
    · exact (h.isAbove_child_iff hlink).mpr (.inr (hparent hmiddle))

theorem length_lineage_le (h : tree.Linked) {ancestor id : NodeId}
    (hid : tree.contains id = true) (habove : tree.isAbove ancestor id = true) :
    (tree.lineage ancestor).length ≤ (tree.lineage id).length := by
  rw [isAbove, List.contains_iff_mem] at habove
  obtain ⟨rest, hrest, hsuffix⟩ := (h.line_lineage hid).suffix_of_mem habove
  rw [h.lineage_of_line hrest]
  exact hsuffix.length_le

theorem not_isAbove_parent (h : tree.Linked) {id parent : NodeId}
    (hlink : tree.parent? id = some parent) : ¬tree.isAbove id parent = true := by
  intro habove
  have hle := h.length_lineage_le (h.contains_parent hlink) habove
  rw [h.lineage_child hlink, List.length_cons] at hle
  omega

theorem eq_of_isAbove_of_siblings (h : tree.Linked) {first second parent id : NodeId}
    (hfirst : tree.parent? first = some parent) (hsecond : tree.parent? second = some parent)
    (hid : tree.contains id = true) (hbelow : tree.isAbove first id = true)
    (hbelow' : tree.isAbove second id = true) : first = second := by
  revert hbelow hbelow'
  refine h.up_induction (motive := fun id => tree.isAbove first id = true →
    tree.isAbove second id = true → first = second) ?_ ?_ hid
  · intro hbelow
    exact absurd (h.isAbove_root_iff.mp hbelow) (h.ne_root_of_parent? hfirst)
  · intro id up hlink ih hbelow hbelow'
    rcases (h.isAbove_child_iff hlink).mp hbelow with heq | hbelow
    · subst heq
      rcases (h.isAbove_child_iff hlink).mp hbelow' with heq' | hbelow'
      · exact heq'.symm
      · rw [hfirst] at hlink
        cases hlink
        exact absurd hbelow' (h.not_isAbove_parent hsecond)
    · rcases (h.isAbove_child_iff hlink).mp hbelow' with heq' | hbelow'
      · subst heq'
        rw [hsecond] at hlink
        cases hlink
        exact absurd hbelow (h.not_isAbove_parent hfirst)
      · exact ih hbelow hbelow'

theorem of_same_links {other : Tree P} (h : tree.Linked)
    (hcontains : ∀ id, other.contains id = tree.contains id)
    (hparent : ∀ id, other.parent? id = tree.parent? id)
    (hchildren : ∀ id, other.children id = tree.children id) : other.Linked where
  contains_root := by rw [hcontains, h.contains_root]
  parent?_root := by rw [hparent, h.parent?_root]
  nodup_children id := by rw [hchildren]; exact h.nodup_children id
  mem_children_iff id child := by rw [hchildren, hparent]; exact h.mem_children_iff id child
  rooted {id} hid := by
    rw [hcontains] at hid
    refine h.up_induction (motive := other.Rooted) .root ?_ hid
    intro id parent hlink hup
    exact .child (by rw [hparent, hlink]) hup

end Linked

/-! ## Chains of children -/

/-- A chain of children from the root down to a node. -/
inductive Chain (tree : Tree P) : List NodeId → NodeId → Prop
  | root : Chain tree [Tree.root] Tree.root
  | child {chain : List NodeId} {id child : NodeId} (above : Chain tree chain id)
      (listed : child ∈ tree.children id) : Chain tree (chain ++ [child]) child

/-- Well-formed trees: the numbers, the links and the ways down from the root are in order. -/
structure WellFormed (tree : Tree P) : Prop where
  contains_root : tree.contains root = true
  parent?_eq_none_iff {id : NodeId} (h : tree.contains id = true) :
    tree.parent? id = none ↔ id = root
  lt_bound {id : NodeId} (h : tree.contains id = true) : id < tree.bound
  nodup_children (id : NodeId) : (tree.children id).Nodup
  mem_children_iff {id : NodeId} (h : tree.contains id = true) (child : NodeId) :
    child ∈ tree.children id ↔ tree.contains child = true ∧ tree.parent? child = some id
  exists_unique_chain {id : NodeId} (h : tree.contains id = true) : ∃! chain, tree.Chain chain id

namespace Linked

variable {tree : Tree P}

theorem reverse_chain (h : tree.Linked) {id : NodeId} {chain : List NodeId}
    (hchain : tree.Chain chain id) : chain.reverse = tree.lineage id := by
  induction hchain with
  | root => exact h.lineage_root.symm
  | child _ listed ih =>
    rw [List.reverse_append, ih, h.lineage_child ((h.mem_children_iff _ _).mp listed)]
    rfl

theorem exists_chain (h : tree.Linked) {id : NodeId} (hid : tree.contains id = true) :
    ∃ chain, tree.Chain chain id := by
  refine h.up_induction (motive := fun id => ∃ chain, tree.Chain chain id) ⟨_, .root⟩ ?_ hid
  intro id parent hlink hparent
  obtain ⟨chain, hchain⟩ := hparent
  exact ⟨_, hchain.child ((h.mem_children_iff _ _).mpr hlink)⟩

theorem wellFormed (h : tree.Linked) : tree.WellFormed where
  contains_root := h.contains_root
  parent?_eq_none_iff {id} hid := by
    constructor
    · intro hnone
      by_contra hne
      obtain ⟨parent, hlink⟩ := h.exists_parent hid hne
      rw [hnone] at hlink
      cases hlink
    · rintro rfl
      exact h.parent?_root
  lt_bound := lt_bound_of_contains
  nodup_children := h.nodup_children
  mem_children_iff {id} _ child := by
    rw [h.mem_children_iff]
    exact ⟨fun hlink => ⟨contains_of_parent? hlink, hlink⟩, fun hlink => hlink.2⟩
  exists_unique_chain {id} hid := by
    obtain ⟨chain, hchain⟩ := h.exists_chain hid
    refine ⟨chain, hchain, fun other hother => ?_⟩
    rw [← List.reverse_inj, h.reverse_chain hother, h.reverse_chain hchain]

end Linked

end Conform.Tree
