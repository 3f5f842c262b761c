import Conform.Attribute
/-!
# Attributes that can be made

Values are set only together with a kind and a cardinality. So an attribute
that holds a value also declares how many, and what an attribute without a
cardinality holds is nothing.
-/

namespace Conform.Attribute

/-- The attributes that the constructors and setters lead to. -/
inductive Obtainable : Attribute → Prop
  | blank : Obtainable blank
  | null : Obtainable null
  | string (s : String) : Obtainable (string s)
  | number (value : Value) : Obtainable (number value)
  | boolean (b : Bool) : Obtainable (boolean b)
  | binary (bytes : List UInt8) : Obtainable (binary bytes)
  | date (millis : Int64) : Obtainable (date millis)
  | time (millis : Int64) : Obtainable (time millis)
  | guess {value : Value} {a : Attribute} (guessed : guess? value = some a) : Obtainable a
  | single {kind : Kind} {value : Value} {a : Attribute} (made : single kind value = .ok a) :
    Obtainable a
  | multiple {kind : Kind} {cardinality : Cardinality} {values : List Value} {a : Attribute}
      (made : multiple kind cardinality values = .ok a) : Obtainable a
  | set {value : Value} {kind : Kind} {cardinality : Cardinality} {a : Attribute}
      (made : set value kind cardinality = .ok a) : Obtainable a

theorem eq_of_set {value : Value} {kind : Kind} {cardinality : Cardinality} {a : Attribute}
    (h : set value kind cardinality = .ok a) :
    a = ⟨some kind, some cardinality, if value.isNull then none else some value⟩ ∧
      (value.isNull = false → value.isArray = cardinality.isMultiple) := by
  rw [set] at h
  split at h
  · cases h
  · next hfit =>
    cases h
    refine ⟨rfl, fun hnull => ?_⟩
    simp only [hnull, Bool.not_false, Bool.true_and, bne_iff_ne, ne_eq, Decidable.not_not] at hfit
    exact hfit.symm

theorem not_isNull_of_set {value : Value} {kind : Kind} {cardinality : Cardinality}
    {a : Attribute} (h : set value kind cardinality = .ok a) {held : Value}
    (hheld : a.value? = some held) : held = value ∧ held.isNull = false := by
  rw [(eq_of_set h).1] at hheld
  cases hnull : value.isNull with
  | true => simp [hnull] at hheld
  | false =>
    simp only [hnull, Bool.false_eq_true, if_false, Option.some.injEq] at hheld
    exact ⟨hheld.symm, hheld ▸ hnull⟩

theorem isArray_iff_of_set {value : Value} {kind : Kind} {cardinality : Cardinality}
    {a : Attribute} (h : set value kind cardinality = .ok a) {held : Value}
    (hheld : a.value? = some held) :
    held.isArray = true ↔ a.cardinality = .set ∨ a.cardinality = .multiset := by
  obtain ⟨rfl, hnull⟩ := not_isNull_of_set h hheld
  obtain ⟨rfl, hfits⟩ := eq_of_set h
  rw [hfits hnull]
  show cardinality.isMultiple = true ↔ cardinality = .set ∨ cardinality = .multiset
  cases cardinality <;> simp [Cardinality.isMultiple]

def members (a : Attribute) : List Value :=
  match a.value? with
  | none => []
  | some (.array items) => items
  | some value => [value]

theorem eq_of_mem_members_of_single {value : Value} {kind : Kind} {a : Attribute}
    (h : set value kind .single = .ok a) {member : Value} (hmember : member ∈ a.members) :
    member = value := by
  rw [members] at hmember
  split at hmember
  · cases hmember
  · next items hitems =>
    have hmultiple := (isArray_iff_of_set h hitems).mp rfl
    rw [(eq_of_set h).1] at hmultiple
    rcases hmultiple with hset | hmultiset
    · cases hset
    · cases hmultiset
  · next held hheld =>
    rw [List.mem_singleton.mp hmember]
    exact (not_isNull_of_set h hheld).1

theorem Obtainable.declared {a : Attribute} (h : a.Obtainable) {value : Value}
    (hvalue : a.value? = some value) : a.cardinality? = some a.cardinality := by
  cases h with
  | blank => cases hvalue
  | null => cases hvalue
  | guess guessed =>
    obtain ⟨kind, _, rfl⟩ := Option.map_eq_some_iff.mp guessed
    rfl
  | single made =>
    rw [(eq_of_set made).1]
    rfl
  | multiple made =>
    rw [(eq_of_set made).1]
    rfl
  | set made =>
    rw [(eq_of_set made).1]
    rfl
  | _ => rfl

end Conform.Attribute
