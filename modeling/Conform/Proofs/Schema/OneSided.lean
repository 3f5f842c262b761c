import Conform.Proofs.Schema.Merge
/-!
# One-sided merges

A schema merged with one that is a root only, on either side, loses nothing
but the entries of its inner nodes: what has no counterpart is copied, and
copies keep entries at leaves.
-/

namespace Conform

universe u

open Conform.Tree (root)

namespace Forest

variable {P : Type u}

def inner : Forest (Label P) → List (Label P)
  | .nil => []
  | .cons label below rest =>
    (if below.isEmpty then [] else [label]) ++ (below.inner ++ rest.inner)

theorem filterRoots_eq_self {α : Type u} {forest : Forest α} {keep : α → Bool}
    (h : ∀ label ∈ forest.roots, keep label = true) : forest.filterRoots keep = forest := by
  apply eq_of_trees
  rw [trees_filterRoots, List.filter_eq_self]
  intro tree htree
  exact h tree.1 (mem_roots_of_mem_trees htree)

variable [Inhabited P]

theorem payload_of_mem_inner_bare {forest : Forest (Label P)} {label : Label P}
    (h : label ∈ forest.bare.inner) : label.payload = default := by
  induction forest with
  | nil => cases h
  | cons first below rest ihbelow ihrest =>
    have hempty : below.bare.isEmpty = below.isEmpty := by cases below <;> rfl
    rw [bare, inner, List.mem_append, List.mem_append, hempty] at h
    rcases h with hfirst | hbelow | hrest
    · cases hleaf : below.isEmpty with
      | true => simp [hleaf] at hfirst
      | false =>
        simp only [hleaf, Bool.false_eq_true, if_false, List.mem_singleton] at hfirst
        rw [hfirst]
    · exact ihbelow hbelow
    · exact ihrest hrest

/-- A copy differs from the original only in what inner nodes held. -/
theorem bare_eq_self {forest : Forest (Label P)}
    (h : ∀ label ∈ forest.inner, label.payload = default) : forest.bare = forest := by
  induction forest with
  | nil => rfl
  | cons label below rest ihbelow ihrest =>
    have hbelow := ihbelow fun other hother => h other (by simp [inner, hother])
    have hrest := ihrest fun other hother => h other (by simp [inner, hother])
    rw [bare, hbelow, hrest]
    cases hleaf : below.isEmpty with
    | true => rfl
    | false =>
      have hlabel := h label (by simp [inner, hleaf])
      rw [← hlabel]
      rfl

end Forest

namespace Schema

variable {a e m : Schema}

/-- Two schemas with the same names in the same shape below the root and the same entries at leaves.
In the first inner nodes have blank entries, which is all that they may differ in. -/
structure CopiedBelow (m a : Schema) : Prop where
  names : (m.labelsBelow root).map (·.name?) = (a.labelsBelow root).map (·.name?)
  leaves : (m.labelsBelow root).leaves = (a.labelsBelow root).leaves
  blank : ∀ label ∈ (m.labelsBelow root).inner, label.payload = .blank
  same_iff : m.labelsBelow root = a.labelsBelow root ↔
    ∀ label ∈ (a.labelsBelow root).inner, label.payload = .blank

theorem copiedBelow_of_bare (h : m.labelsBelow root = (a.labelsBelow root).bare) :
    m.CopiedBelow a where
  names := by rw [h, Forest.map_name?_bare]
  leaves := by rw [h, Forest.leaves_bare]
  blank label hlabel := by
    rw [h] at hlabel
    exact Forest.payload_of_mem_inner_bare hlabel
  same_iff := by
    constructor
    · intro hsame label hlabel
      rw [← hsame, h] at hlabel
      exact Forest.payload_of_mem_inner_bare hlabel
    · intro hblank
      rw [h]
      exact Forest.bare_eq_self hblank

theorem mergeRow_nil_right (place : Path) (ours : Forest (Label Entry)) :
    mergeRow place .nil ours = .ok (ours.bare, []) := by
  induction ours with
  | nil => rfl
  | cons label below rest _ ih =>
    have hmissing : partner? .nil label.title = none := rfl
    rw [mergeRow_cons_missing hmissing, ih, Forest.bare]
    cases below.isEmpty <;> rfl

theorem withRest_nil_left (theirs : Forest (NodeId × Label Entry)) :
    withRest theirs (.nil, []) = (theirs.map (·.2)).bare := by
  have hall : theirs.filterRoots (fun tree => !([] : List NodeId).contains tree.1) = theirs :=
    Forest.filterRoots_eq_self fun _ _ => rfl
  rw [withRest, hall]
  rfl

theorem numberedBelow_of_childless (h : e.children root = []) : numberedBelow e = .nil := by
  rw [numberedBelow, h, Tree.branches]
  cases e.bound <;> rfl

theorem labelsBelow_of_childless (h : e.children root = []) : e.labelsBelow root = .nil := by
  rw [← map_snd_numberedBelow, numberedBelow_of_childless h]
  rfl

theorem ofOutline_root (ha : a.Linked) (below : Forest (Label Entry)) :
    let m : Schema := .ofOutline ⟨⟨a.name? root, (a.payload? root).getD default⟩, below⟩
    m.name? root = a.name? root ∧ m.payload? root = a.payload? root ∧
      m.labelsBelow root = below := by
  intro m
  have houtline : m.outline? root = _ := Tree.outline?_ofOutline _
  rw [Tree.name?_of_outline? houtline, Tree.payload?_of_outline? houtline,
    Tree.labelsBelow_of_outline? houtline]
  obtain ⟨node, hnode⟩ := Tree.contains_iff.mp ha.contains_root
  rw [Tree.payload?_of_find? hnode]
  exact ⟨rfl, rfl, rfl⟩

theorem merge_childless (ha : a.Linked) (hlinked : e.Linked) (he : e.children root = []) :
    a.merge e = .ok (.ofOutline ⟨⟨a.name? root, (a.payload? root).getD default⟩,
      (a.labelsBelow root).bare⟩) := by
  have hrest : withRest .nil ((a.labelsBelow root).bare, []) = (a.labelsBelow root).bare :=
    Forest.append_nil _
  rw [merge_eq_mergeRows ha hlinked, mergeRows, numberedBelow_of_childless he, mergeRow_nil_right]
  conv_rhs => rw [← hrest]
  rfl

theorem childless_merge (ha : a.Linked) (hlinked : e.Linked) (he : e.children root = []) :
    e.merge a = .ok (.ofOutline ⟨⟨e.name? root, (e.payload? root).getD default⟩,
      (a.labelsBelow root).bare⟩) := by
  rw [merge_eq_mergeRows hlinked ha, mergeRows, labelsBelow_of_childless he,
    ← map_snd_numberedBelow, ← withRest_nil_left]
  rfl

/-- A schema merged with a mere root, on either side, is copied below the root: names, shape, order
and the entries of leaves stay, and inner nodes have blank entries. So it is unchanged exactly when
they had blank entries before. -/
theorem merge_one_sided {good good' : Entry → Prop} (ha : Tree.Reachable good a)
    (he : Tree.Reachable good' e) (hchildless : e.children root = []) :
    (∃ m, a.merge e = .ok m ∧ m.name? root = a.name? root ∧ m.payload? root = a.payload? root ∧
      m.CopiedBelow a) ∧
    ∃ m, e.merge a = .ok m ∧ m.name? root = e.name? root ∧ m.payload? root = e.payload? root ∧
      m.CopiedBelow a := by
  constructor
  · obtain ⟨hname, hpayload, hbelow⟩ := ofOutline_root ha.linked (a.labelsBelow root).bare
    exact ⟨_, merge_childless ha.linked he.linked hchildless, hname, hpayload,
      copiedBelow_of_bare hbelow⟩
  · obtain ⟨hname, hpayload, hbelow⟩ := ofOutline_root he.linked (a.labelsBelow root).bare
    exact ⟨_, childless_merge ha.linked he.linked hchildless, hname, hpayload,
      copiedBelow_of_bare hbelow⟩

private def tripSchema : Schema :=
  .ofOutline ⟨⟨some "trip", .blank⟩,
    .cons ⟨some "day", .ofKind .date⟩ (.cons ⟨some "gate", .ofKind .string⟩ .nil .nil)
      (.cons ⟨some "seat", .ofKind .number⟩ .nil .nil)⟩

private def rootSchema : Schema := .ofOutline ⟨⟨some "trip", .blank⟩, .nil⟩

theorem merge_one_sided_trip :
    Tree.Reachable (fun _ => True) tripSchema ∧ Tree.Reachable (fun _ => True) rootSchema ∧
    rootSchema.children root = [] ∧
    (∃ m, tripSchema.merge rootSchema = .ok m ∧ m.CopiedBelow tripSchema) ∧
    ∃ m, rootSchema.merge tripSchema = .ok m ∧ m.CopiedBelow tripSchema := by
  have htrip : Tree.Reachable (fun _ => True) tripSchema :=
    Tree.reachable_ofOutline _ trivial fun _ _ => trivial
  have hroot : Tree.Reachable (fun _ => True) rootSchema :=
    Tree.reachable_ofOutline _ trivial fun _ _ => trivial
  obtain ⟨⟨m, hmerge, _, _, hcopied⟩, ⟨m', hmerge', _, _, hcopied'⟩⟩ :=
    merge_one_sided htrip hroot rfl
  exact ⟨htrip, hroot, rfl, ⟨m, hmerge, hcopied⟩, m', hmerge', hcopied'⟩

/-- The entry of the inner node is lost on either side, though nothing stands against it. -/
theorem merge_one_sided_loses_entry :
    Tree.Reachable (fun _ => True) tripSchema ∧ tripSchema.Named ∧
    Tree.Reachable (fun _ => True) rootSchema ∧ rootSchema.children root = [] ∧
    tripSchema.payloadAt? ⟨["day"]⟩ = some (.ofKind .date) ∧
    (∃ m, tripSchema.merge rootSchema = .ok m ∧ m.payloadAt? ⟨["day"]⟩ = some .blank) ∧
    (∃ m, rootSchema.merge tripSchema = .ok m ∧ m.payloadAt? ⟨["day"]⟩ = some .blank) ∧
    Entry.ofKind .date ≠ .blank := by
  refine ⟨Tree.reachable_ofOutline _ trivial fun _ _ => trivial, by decide,
    Tree.reachable_ofOutline _ trivial fun _ _ => trivial, rfl, rfl, ⟨_, rfl, rfl⟩, ⟨_, rfl, rfl⟩, ?_⟩
  intro heq
  have hkind : some Kind.date = none := congrArg Entry.kind? heq
  cases hkind

end Schema

end Conform
