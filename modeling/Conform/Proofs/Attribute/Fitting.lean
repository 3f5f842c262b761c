import Conform.Proofs.Attribute
/-!
# Values that fit

What the constructors make and what setting and copying, failed or not, lead to
from there. Setting refuses what does not fit and copying brings nothing new,
so it is the constructors that decide. All but one of them make only what
fits: the one for numbers takes any value and holds a list as a single value.
-/

namespace Conform.Attribute

/-- The attributes that constructors make and that setting and copying lead to, where the values
given to the constructor of numbers are of one sort. -/
inductive Made (numbers : Value → Prop) : Attribute → Prop
  | blank : Made numbers blank
  | null : Made numbers null
  | string (s : String) : Made numbers (string s)
  | number {value : Value} (given : numbers value) : Made numbers (number value)
  | boolean (b : Bool) : Made numbers (boolean b)
  | binary (bytes : List UInt8) : Made numbers (binary bytes)
  | date (millis : Int64) : Made numbers (date millis)
  | time (millis : Int64) : Made numbers (time millis)
  | guess {value : Value} {a : Attribute} (guessed : guess? value = some a) : Made numbers a
  | single {kind : Kind} {value : Value} {a : Attribute} (made : single kind value = .ok a) :
    Made numbers a
  | multiple {kind : Kind} {cardinality : Cardinality} {values : List Value} {a : Attribute}
      (made : multiple kind cardinality values = .ok a) : Made numbers a
  | assign {a : Attribute} (before : Made numbers a) (value : Value) (kind : Kind)
      (cardinality : Cardinality) : Made numbers (a.assign value kind cardinality).1
  | copyFrom {a other : Attribute} (before : Made numbers a) (source : Made numbers other) :
    Made numbers (a.copyFrom other)

theorem fits_iff {a : Attribute} :
    a.Fits ↔ ∀ value, a.value? = some value →
      (value.isArray = true ↔ a.cardinality = .set ∨ a.cardinality = .multiset) := by
  have hmultiple : a.isMultiple = true ↔ a.cardinality = .set ∨ a.cardinality = .multiset := by
    rw [isMultiple]
    cases a.cardinality <;> simp [Cardinality.isMultiple]
  constructor
  · intro h value hvalue
    rw [h value hvalue, hmultiple]
  · intro h value hvalue
    rw [Bool.eq_iff_iff, h value hvalue, hmultiple]

/-- A value that a constructor takes as it is fits exactly when it is no list. -/
theorem fits_scalar_iff (kind : Kind) (value : Value) :
    (scalar kind value).Fits ↔ value.isArray = false := by
  constructor
  · intro h
    exact h value rfl
  · intro h held hheld
    cases hheld
    exact h

theorem not_isArray_of_kind? {value : Value} {kind : Kind} (h : value.kind? = some kind) :
    value.isArray = false := by
  cases value with
  | array items => cases h
  | _ => rfl

theorem fits_of_guess? {value : Value} {a : Attribute} (h : guess? value = some a) : a.Fits := by
  obtain ⟨kind, hkind, rfl⟩ := Option.map_eq_some_iff.mp h
  exact (fits_scalar_iff kind value).mpr (not_isArray_of_kind? hkind)

theorem Fits.assign {a : Attribute} (h : a.Fits) (value : Value) (kind : Kind)
    (cardinality : Cardinality) : (a.assign value kind cardinality).1.Fits := by
  rw [Attribute.assign]
  split
  · next changed hset => exact fits_of_set hset
  · exact h

theorem Made.fits {numbers : Value → Prop}
    (hnumbers : ∀ value, numbers value → value.isArray = false) {a : Attribute}
    (h : Made numbers a) : a.Fits := by
  induction h with
  | blank => exact fun _ hvalue => nomatch hvalue
  | null => exact fun _ hvalue => nomatch hvalue
  | number given => exact (fits_scalar_iff _ _).mpr (hnumbers _ given)
  | string | boolean | binary | date | time => exact (fits_scalar_iff _ _).mpr rfl
  | guess guessed => exact fits_of_guess? guessed
  | single made => exact fits_of_set made
  | multiple made => exact fits_of_set made
  | assign before value kind cardinality ih => exact ih.assign value kind cardinality
  | copyFrom before source _ ih => exact ih

/-- All attributes that can be made hold a list exactly when they hold several values, if and only if
no list is given to the constructor of numbers. -/
theorem made_fits_iff (numbers : Value → Prop) :
    (∀ a, Made numbers a → ∀ value, a.value? = some value →
      (value.isArray = true ↔ a.cardinality = .set ∨ a.cardinality = .multiset)) ↔
      ∀ value, numbers value → value.isArray = false := by
  constructor
  · intro h value hvalue
    exact (fits_scalar_iff .number value).mp (fits_iff.mpr (h _ (.number hvalue)))
  · intro hnumbers a ha
    exact fits_iff.mp (ha.fits hnumbers)

/-- A list that passes for one number. -/
theorem made_number_list : ¬∀ a, Made (fun _ => True) a → ∀ value, a.value? = some value →
    (value.isArray = true ↔ a.cardinality = .set ∨ a.cardinality = .multiset) := by
  intro h
  have hmade : Made (fun _ => True) (number (.array [.integer 1, .integer 2])) := .number trivial
  cases (h _ hmade _ rfl).mp rfl with
  | inl hset => cases hset
  | inr hmultiset => cases hmultiset

end Conform.Attribute
