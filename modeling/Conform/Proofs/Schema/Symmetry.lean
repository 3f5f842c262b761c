import Conform.Proofs.Schema.Associativity
/-!
# Merging in either order

The order of two schemas decides whose entries the merged schema keeps and
whose children come first. It does not decide whether they can be merged, nor
which paths there are, nor what kind and cardinality is expected at a leaf.
-/

namespace Conform

universe u

open Conform.Tree (root)

theorem Outline.isSome_leafAt? {P : Type u} (outline : Outline P) (names : List String) :
    (outline.leafAt? names).isSome = (outline.at? names).isSome := by
  rw [leafAt?, Option.isSome_map]

namespace Schema

/-- The same kind, or none in both, and the same cardinality in effect. -/
def Alike (entry other : Entry) : Prop :=
  entry.kind? = other.kind? ∧ entry.cardinality = other.cardinality

theorem Compatible.alike {ours theirs : Option Entry} (h : Compatible ours theirs) :
    Option.Rel Alike ours theirs := by
  cases h with
  | inner => exact .none
  | leaves ourKind theirKind cardinality =>
    exact .some ⟨ourKind.trans theirKind.symm, cardinality⟩

theorem alike_refl (leaf? : Option Entry) : Option.Rel Alike leaf? leaf? := by
  cases leaf? with
  | none => exact .none
  | some entry => exact .some ⟨rfl, rfl⟩

theorem rel_or_comm {ours? theirs? : Option (Option Entry)} (h : Agree ours? theirs?) :
    Option.Rel (Option.Rel Alike) (ours?.or theirs?) (theirs?.or ours?) := by
  cases ours? with
  | none =>
    cases theirs? with
    | none => exact .none
    | some theirs => exact .some (alike_refl theirs)
  | some ours =>
    cases theirs? with
    | none => exact .some (alike_refl ours)
    | some theirs => exact .some (agree_some_iff.mp h).alike

theorem Outlined.leafAt?_of_resolve? {m : Schema} {merged : Outline Entry} (h : Outlined m merged)
    {path : Path} {id : NodeId} (hid : m.resolve? root path = some id) :
    ∃ entry, m.payload? id = some entry ∧
      merged.leafAt? path.segments = some (if m.isLeaf id then some entry else none) := by
  obtain ⟨place, hplace, houtline⟩ := h.linked.at?_of_resolve? h.outline? hid
  refine ⟨place.root.payload, Tree.payload?_of_outline? houtline, ?_⟩
  rw [Outline.leafAt?, hplace, h.linked.isLeaf_of_outline? houtline]
  rfl

/-- In the outlines of both merged schemas a path leads to leaves that are alike, to inner nodes or
nowhere. -/
theorem exists_outlined_of_merge {a b m n : Schema} {first second : Outline Entry}
    (ha : Outlined a first) (hb : Outlined b second) (hm : a.merge b = .ok m)
    (hn : b.merge a = .ok n) :
    ∃ merged merged', Outlined m merged ∧ Outlined n merged' ∧ ∀ path : Path, path ≠ .empty →
      Option.Rel (Option.Rel Alike) (merged.leafAt? path.segments)
        (merged'.leafAt? path.segments) := by
  have hagree := (merge_ok_iff ha hb).mp ⟨m, hm⟩
  obtain ⟨merged, hm, hunion⟩ := union_of_merge ha hb hm
  obtain ⟨merged', hn, hunion'⟩ := union_of_merge hb ha hn
  refine ⟨merged, merged', hm, hn, ?_⟩
  rintro ⟨_ | ⟨name, rest⟩⟩ hpath
  · exact absurd rfl hpath
  · rw [hunion.leafAt?, hunion'.leafAt?]
    exact rel_or_comm (hagree name rest)

theorem Outlined.alike_of_rel {m n : Schema} {merged merged' : Outline Entry}
    (hm : Outlined m merged) (hn : Outlined n merged') {path : Path}
    (hrel : Option.Rel (Option.Rel Alike) (merged.leafAt? path.segments)
      (merged'.leafAt? path.segments)) {id other : NodeId} (hid : m.resolve? root path = some id)
    (hother : n.resolve? root path = some other) :
    m.isLeaf id = n.isLeaf other ∧
    (m.isLeaf id = true → ∃ entry entry', m.payload? id = some entry ∧
      n.payload? other = some entry' ∧ Alike entry entry') := by
  obtain ⟨entry, hentry, hleaf⟩ := hm.leafAt?_of_resolve? hid
  obtain ⟨entry', hentry', hleaf'⟩ := hn.leafAt?_of_resolve? hother
  rw [hleaf, hleaf', Option.rel_some_some] at hrel
  cases hours : m.isLeaf id with
  | false =>
    cases htheirs : n.isLeaf other with
    | false => simp
    | true => simp [hours, htheirs] at hrel
  | true =>
    cases htheirs : n.isLeaf other with
    | false => simp [hours, htheirs] at hrel
    | true =>
      simp only [hours, htheirs, if_true, Option.rel_some_some] at hrel
      exact ⟨rfl, fun _ => ⟨entry, entry', hentry, hentry', hrel⟩⟩

/-- Merging in either order succeeds or fails alike, and the results have the same paths below the
root, the same leaves among them, and leaves of the same kind and cardinality. -/
theorem merge_symm {a b : Schema} {good good' : Entry → Prop} (ha : Tree.Reachable good a)
    (hb : Tree.Reachable good' b) (hnamed : a.Named) (hnamed' : b.Named) :
    ((∃ m, a.merge b = .ok m) ↔ ∃ n, b.merge a = .ok n) ∧
    ∀ m n, a.merge b = .ok m → b.merge a = .ok n → ∀ path, path ≠ .empty →
      ((m.resolve? root path).isSome = true ↔ (n.resolve? root path).isSome = true) ∧
      ∀ id other, m.resolve? root path = some id → n.resolve? root path = some other →
        m.isLeaf id = n.isLeaf other ∧
        (m.isLeaf id = true → ∃ entry entry', m.payload? id = some entry ∧
          n.payload? other = some entry' ∧ entry.kind? = entry'.kind? ∧
          entry.cardinality = entry'.cardinality) := by
  obtain ⟨first, ha⟩ := exists_outlined ha hnamed
  obtain ⟨second, hb⟩ := exists_outlined hb hnamed'
  constructor
  · rw [merge_ok_iff ha hb, merge_ok_iff hb ha]
    constructor
    · intro h name rest
      exact (h name rest).symm
    · intro h name rest
      exact (h name rest).symm
  · intro m n hm hn path hpath
    obtain ⟨merged, merged', hm, hn, hpaths⟩ := exists_outlined_of_merge ha hb hm hn
    have hrel := hpaths path hpath
    constructor
    · rw [hm.linked.isSome_resolve? hm.outline?, hn.linked.isSome_resolve? hn.outline?,
        ← Outline.isSome_leafAt?, ← Outline.isSome_leafAt?]
      generalize merged.leafAt? path.segments = leaf? at hrel
      generalize merged'.leafAt? path.segments = leaf?' at hrel
      cases hrel <;> simp
    · intro id other hid hother
      exact hm.alike_of_rel hn hrel hid hother

private def onceEntry : Entry := { Entry.ofKind .string with cardinality? := some .single }

private def agendaSchema : Schema :=
  Tree.ofOutline ⟨⟨some "agenda", .blank⟩,
    .cons ⟨some "topic", onceEntry⟩ .nil
      (.cons ⟨some "place", .blank⟩ (.cons ⟨some "room", .ofKind .number⟩ .nil .nil) .nil)⟩

private def minutesSchema : Schema :=
  Tree.ofOutline ⟨⟨none, .ofKind .object⟩,
    .cons ⟨some "place", .ofKind .object⟩ (.cons ⟨some "note", .blank⟩ .nil .nil)
      (.cons ⟨some "topic", .ofKind .string⟩ .nil .nil)⟩

private def agendaFirst : Schema :=
  Tree.ofOutline ⟨⟨some "agenda", .blank⟩,
    .cons ⟨some "topic", onceEntry⟩ .nil
      (.cons ⟨some "place", .blank⟩
        (.cons ⟨some "room", .ofKind .number⟩ .nil (.cons ⟨some "note", .blank⟩ .nil .nil)) .nil)⟩

private def minutesFirst : Schema :=
  Tree.ofOutline ⟨⟨none, .ofKind .object⟩,
    .cons ⟨some "place", .ofKind .object⟩
      (.cons ⟨some "note", .blank⟩ .nil (.cons ⟨some "room", .ofKind .number⟩ .nil .nil))
      (.cons ⟨some "topic", .ofKind .string⟩ .nil .nil)⟩

theorem merge_symm_agenda :
    Tree.Reachable (fun _ => True) agendaSchema ∧ Tree.Reachable (fun _ => True) minutesSchema ∧
    agendaSchema.Named ∧ minutesSchema.Named ∧
    agendaSchema.merge minutesSchema = .ok agendaFirst ∧
    minutesSchema.merge agendaSchema = .ok minutesFirst ∧
    agendaFirst.resolve? root ⟨["topic"]⟩ = some 1 ∧
    minutesFirst.resolve? root ⟨["topic"]⟩ = some 4 ∧ agendaFirst.isLeaf 1 = true ∧
    ∃ entry entry', agendaFirst.payload? 1 = some entry ∧ minutesFirst.payload? 4 = some entry' ∧
      entry.kind? = entry'.kind? ∧ entry.cardinality = entry'.cardinality := by
  have hagenda : Tree.Reachable (fun _ => True) agendaSchema :=
    Tree.reachable_ofOutline _ trivial fun _ _ => trivial
  have hminutes : Tree.Reachable (fun _ => True) minutesSchema :=
    Tree.reachable_ofOutline _ trivial fun _ _ => trivial
  have hnamed : agendaSchema.Named ∧ minutesSchema.Named := by decide
  have hfirst : agendaSchema.merge minutesSchema = .ok agendaFirst :=
    (merge_eq_mergeRows hagenda.linked hminutes.linked).trans rfl
  have hsecond : minutesSchema.merge agendaSchema = .ok minutesFirst :=
    (merge_eq_mergeRows hminutes.linked hagenda.linked).trans rfl
  have htopic : agendaFirst.resolve? root ⟨["topic"]⟩ = some 1 := rfl
  have htopic' : minutesFirst.resolve? root ⟨["topic"]⟩ = some 4 := rfl
  have hpath : (⟨["topic"]⟩ : Path) ≠ .empty := by decide
  have hsymm := merge_symm hagenda hminutes hnamed.1 hnamed.2
  obtain ⟨-, hleaves⟩ := hsymm.2 _ _ hfirst hsecond _ hpath
  obtain ⟨-, hentries⟩ := hleaves _ _ htopic htopic'
  exact ⟨hagenda, hminutes, hnamed.1, hnamed.2, hfirst, hsecond, htopic, htopic', rfl,
    hentries rfl⟩

end Schema

end Conform
