import Conform.Proofs.Schema.Conflicts
/-!
# Compatible schemas

Two schemas can be merged exactly when they go together at every path that
leads somewhere in both: either both have leaves there of the same kind and
the same cardinality in effect, or both have nodes with children.
-/

namespace Conform

universe u

/-- What an outline is as a leaf; none with nodes below its root. -/
def Outline.leaf? {P : Type u} (outline : Outline P) : Option P :=
  if outline.below.isEmpty then some outline.root.payload else none

theorem Outline.payload_of_leaf? {P : Type u} {outline : Outline P} {payload : P}
    (h : outline.leaf? = some payload) : outline.root.payload = payload := by
  rw [leaf?] at h
  split at h
  · exact Option.some.inj h
  · cases h

def Outline.leafAt? {P : Type u} (outline : Outline P) (names : List String) : Option (Option P) :=
  (outline.at? names).map leaf?

@[simp] theorem Outline.leaf?_bare {P : Type u} [Inhabited P] (outline : Outline P) :
    outline.bare.leaf? = outline.leaf? := by
  rw [leaf?, leaf?, isEmpty_bare]
  split
  · next hleaf => rw [root_bare hleaf]
  · rfl

theorem Outline.leafAt?_cons {P : Type u} (outline : Outline P) (name : String)
    (rest : List String) : outline.leafAt? (name :: rest) =
      (outline.below.named? name).bind fun tree => leafAt? ⟨tree.1, tree.2⟩ rest := by
  rw [leafAt?, at?_cons, Option.map_bind]
  rfl

namespace Schema

/-- Two things, as leaves, that may stand at one path of two schemas. -/
inductive Compatible : Option Entry → Option Entry → Prop
  | inner : Compatible none none
  | leaves {ours theirs : Entry} {kind : Kind} (ourKind : ours.kind? = some kind)
      (theirKind : theirs.kind? = some kind)
      (cardinality : ours.cardinality = theirs.cardinality) :
      Compatible (some ours) (some theirs)

namespace Compatible

variable {ours theirs others : Option Entry}

theorem symm (h : Compatible ours theirs) : Compatible theirs ours := by
  cases h with
  | inner => exact .inner
  | leaves ourKind theirKind cardinality => exact .leaves theirKind ourKind cardinality.symm

theorem trans (h : Compatible ours theirs) (h' : Compatible theirs others) :
    Compatible ours others := by
  cases h with
  | inner => exact h'
  | leaves ourKind theirKind cardinality =>
    cases h' with
    | leaves theirKind' otherKind cardinality' =>
      rw [theirKind] at theirKind'
      cases theirKind'
      exact .leaves ourKind otherKind (cardinality.trans cardinality')

end Compatible

/-- What stands at one path of two schemas goes together, where there is something in both. -/
def Agree (ours? theirs? : Option (Option Entry)) : Prop :=
  ∀ ours, ours? = some ours → ∀ theirs, theirs? = some theirs → Compatible ours theirs

theorem Agree.symm {ours? theirs? : Option (Option Entry)} (h : Agree ours? theirs?) :
    Agree theirs? ours? :=
  fun theirs htheirs ours hours => (h ours hours theirs htheirs).symm

theorem agree_some_iff {ours theirs : Option Entry} :
    Agree (some ours) (some theirs) ↔ Compatible ours theirs := by
  simp [Agree]

theorem agree_none_left (theirs? : Option (Option Entry)) : Agree none theirs? := by
  simp [Agree]

theorem agree_none_right (ours? : Option (Option Entry)) : Agree ours? none := by
  simp [Agree]

/-! ## Schemas that can be merged -/

theorem clash?_eq_none_iff {path : Path} {ourLeaf theirLeaf : Bool} {ours theirs : Entry} :
    clash? path ourLeaf theirLeaf ours theirs = none ↔
      Compatible (if ourLeaf then some ours else none) (if theirLeaf then some theirs else none) := by
  constructor
  · intro h
    rw [clash?] at h
    split at h
    · cases h
    · next htyped =>
      split at h
      · cases h
      · next hsame =>
        obtain ⟨hshape, hleaf⟩ := not_or.mp hsame
        obtain rfl : ourLeaf = theirLeaf := not_not.mp hleaf
        cases ourLeaf with
        | false => exact .inner
        | true =>
          have hboth : ours.kind? = theirs.kind? ∧ ours.cardinality = theirs.cardinality := by
            by_contra hdiffer
            exact hshape ⟨rfl, rfl, not_and_or.mp hdiffer⟩
          cases hkind : ours.kind? with
          | none => exact absurd ⟨rfl, rfl, .inl hkind⟩ htyped
          | some kind => exact .leaves hkind (hboth.1.symm.trans hkind) hboth.2
  · intro h
    cases ourLeaf with
    | false =>
      cases theirLeaf with
      | false => rfl
      | true => cases h
    | true =>
      cases theirLeaf with
      | false => cases h
      | true =>
        cases h with
        | leaves ourKind theirKind cardinality =>
          simp [clash?, ourKind, theirKind, cardinality]

theorem agree_iff_clashBelow?_eq_none {place : Path} {ours theirs : Outline Entry}
    {names : List String} :
    Agree (ours.leafAt? names) (theirs.leafAt? names) ↔
      clashBelow? place ours theirs names = none := by
  rw [Outline.leafAt?, Outline.leafAt?, clashBelow?]
  cases ours.at? names with
  | none => simp [agree_none_left]
  | some found =>
    cases theirs.at? names with
    | none => simp [agree_none_right]
    | some other => exact agree_some_iff.trans clash?_eq_none_iff.symm

/-- Two schemas can be merged when they go together at every path below the root. -/
theorem merge_ok_iff {a b : Schema} {ours theirs : Outline Entry} (ha : Outlined a ours)
    (hb : Outlined b theirs) :
    (∃ m, a.merge b = .ok m) ↔
      ∀ name rest, Agree (ours.leafAt? (name :: rest)) (theirs.leafAt? (name :: rest)) := by
  rw [(reports_merge ha hb).ok_iff, clashesBelow, List.flatMap_eq_nil_iff]
  simp only [Option.toList_eq_nil_iff, ← agree_iff_clashBelow?_eq_none]
  constructor
  · intro hall name rest
    cases hplace : ours.at? (name :: rest) with
    | none =>
      rw [Outline.leafAt?, hplace]
      exact agree_none_left _
    | some place =>
      have hways := Outline.mem_ways_of_at? hplace
      exact hall _ (List.mem_of_ne_of_mem (List.cons_ne_nil name rest) hways)
  · intro hall names hnames
    cases names with
    | nil => exact absurd rfl (Forest.path_ne_empty_of_mem_ways hnames)
    | cons name rest => exact hall name rest

theorem Joined.leaf?_eq {ours? theirs? merged? : Option (Outline Entry)}
    (h : Joined ours? theirs? merged?) : merged?.map Outline.leaf? =
      (ours?.map Outline.leaf?).or (theirs?.map Outline.leaf?) := by
  cases h with
  | nowhere => rfl
  | ours outline => simp
  | theirs outline => simp
  | @both ours theirs merged hroot hnames hleaf =>
    have hempty := ((Joined.both hroot hnames hleaf).isEmpty_eq rfl).1 ours rfl
    simp [Outline.leaf?, hempty, hroot]

end Schema

end Conform
