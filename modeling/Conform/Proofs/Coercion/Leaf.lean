import Conform.Coercion
import Conform.Proofs.Attribute
import Conform.Proofs.Value.Agreement
import Conform.Proofs.Zone.LocalTimes
import Mathlib.Data.List.Forall2
/-!
# Coerced leaves

What an attribute looks like after it was held against an entry, however kind
and cardinality were declared on the two sides and whatever it held.
-/

namespace Conform

theorem Kind.validate_date_iff (value : Value) :
    Kind.date.validate value = .ok () ↔
      ∃ millis, value.millis? = some millis ∧ Instant.first ≤ millis.toInt ∧
        millis.toInt ≤ Instant.last ∧ 86400000 ∣ millis.toInt := by
  rw [Kind.validate, Value.millisFor]
  cases hmillis : value.millis? with
  | none => simp
  | some millis =>
    have hday : Instant.day ∣ millis.toInt ↔ millis.toInt % Instant.day = 0 :=
      Int.dvd_iff_emod_eq_zero
    simp only [Instant.isMidnight, Instant.inCalendar, Option.some.injEq, exists_eq_left',
      ← show Instant.day = 86400000 from rfl, hday, ite_eq_left_iff, reduceCtorEq, imp_false,
      not_not, Bool.and_eq_true, decide_eq_true_eq, and_assoc]

theorem millisFor_eq_ok_iff {value : Value} {kind : Kind} {millis : Int64} :
    value.millisFor kind = .ok millis ↔ value.millis? = some millis := by
  rw [Value.millisFor]
  cases value.millis? <;> simp

/-! ## One value after another -/

/-- What a value becomes under an entry. A number that becomes a date is its milliseconds. One that
becomes a time is these less what the zone of the entry, else the default zone, is ahead. Every
other value stays as it is. -/
inductive Entry.Becomes (atlas : Atlas) (entry : Entry) (zone : Zone) (source target : Kind)
    (old : Value) : Value → Prop where
  | date {millis} (number : source = .number) (date : target = .date)
      (reads : old.millis? = some millis) :
      Becomes atlas entry zone source target old (.integer millis)
  | time {millis own? shifted} (number : source = .number) (time : target = .time)
      (reads : old.millis? = some millis) (names : entry.Names atlas own?)
      (shift : shifted.toInt = millis.toInt - (own?.getD zone).millisAhead atlas millis.toInt) :
      Becomes atlas entry zone source target old (.integer shifted)
  | same (other : ¬(source = .number ∧ (target = .date ∨ target = .time))) :
      Becomes atlas entry zone source target old old

section Values

variable {atlas : Atlas} {source target : Kind} {entry : Entry} {zone : Zone}

theorem convert_date_ok_iff {value converted : Value} :
    convert atlas .number .date value entry zone = .ok converted ↔
      ∃ millis, value.millis? = some millis ∧ converted = .integer millis := by
  rw [convert, bind_eq_ok_iff]
  simp only [lift_eq_ok_iff, millisFor_eq_ok_iff, pure_eq_ok_iff]

theorem convert_time_ok_iff {value converted : Value} :
    convert atlas .number .time value entry zone = .ok converted ↔
      ∃ millis own?, value.millis? = some millis ∧ entry.Names atlas own? ∧
        converted = .integer (millis - (own?.getD zone).offsetAt atlas millis) := by
  rw [convert]
  simp only [bind_eq_ok_iff, lift_eq_ok_iff, millisFor_eq_ok_iff, Entry.zone?_ok_iff,
    pure_eq_ok_iff, exists_and_left]

theorem convert_of_other {value : Value}
    (other : ¬(source = .number ∧ (target = .date ∨ target = .time))) :
    convert atlas source target value entry zone = .ok value := by
  rw [convert]
  · exact fun hnumber hdate => other ⟨hnumber, .inl hdate⟩
  · exact fun hnumber htime => other ⟨hnumber, .inr htime⟩

theorem convert_ok_iff {value converted : Value} :
    convert atlas source target value entry zone = .ok converted ↔
      entry.Becomes atlas zone source target value converted := by
  constructor
  · intro h
    by_cases hnumber : source = .number ∧ (target = .date ∨ target = .time)
    · obtain ⟨rfl, rfl | rfl⟩ := hnumber
      · obtain ⟨millis, hmillis, rfl⟩ := convert_date_ok_iff.mp h
        exact .date rfl rfl hmillis
      · obtain ⟨millis, own?, hmillis, hnames, rfl⟩ := convert_time_ok_iff.mp h
        exact .time rfl rfl hmillis hnames (Zone.toInt_sub_offsetAt atlas _ _)
    · rw [convert_of_other hnumber, Except.ok.injEq] at h
      exact h ▸ .same hnumber
  · intro h
    cases h with
    | date number date reads =>
      rw [number, date]
      exact convert_date_ok_iff.mpr ⟨_, reads, rfl⟩
    | time number time reads names shift =>
      rw [number, time]
      refine convert_time_ok_iff.mpr ⟨_, _, reads, names, congrArg Value.integer ?_⟩
      rw [← Int64.toInt_inj, shift, Zone.toInt_sub_offsetAt]
    | same other => exact convert_of_other other

theorem convertChecked_ok_iff {value converted : Value} :
    convertChecked atlas source target entry zone value = .ok converted ↔
      entry.Becomes atlas zone source target value converted ∧
        target.validate converted = .ok () := by
  rw [convertChecked, ← convert_ok_iff]
  simp only [bind_eq_ok_iff, lift_eq_ok_iff, pure_eq_ok_iff]
  constructor
  · rintro ⟨new, hconvert, _, hvalid, rfl⟩
    exact ⟨hconvert, hvalid⟩
  · rintro ⟨hconvert, hvalid⟩
    exact ⟨converted, hconvert, (), hvalid, rfl⟩

theorem convertEach_ok_iff {values converted : List Value} :
    convertEach atlas source target entry zone values = .ok converted ↔
      List.Forall₂ (fun old new => convertChecked atlas source target entry zone old = .ok new)
        values converted := by
  induction values generalizing converted with
  | nil =>
    rw [convertEach, List.forall₂_nil_left_iff]
    exact ⟨fun h => (Except.ok.inj h).symm, fun h => h ▸ rfl⟩
  | cons value rest ih =>
    rw [convertEach, bind_eq_ok_iff, List.forall₂_cons_left_iff]
    constructor
    · rintro ⟨first, hfirst, hrest⟩
      obtain ⟨others, hothers, heq⟩ := bind_eq_ok_iff.mp hrest
      cases heq
      exact ⟨first, others, hfirst, ih.mp hothers, rfl⟩
    · rintro ⟨first, others, hfirst, hothers, rfl⟩
      exact ⟨first, hfirst, bind_eq_ok_iff.mpr ⟨others, ih.mpr hothers, rfl⟩⟩

end Values

namespace Entry

variable {atlas : Atlas} {entry : Entry} {zone : Zone} {path : Path} {former coerced : Attribute}

/-- What coercion by an entry makes of an attribute. -/
structure Met (atlas : Atlas) (entry : Entry) (zone : Zone) (former coerced : Attribute) : Prop where
  kind? : coerced.kind? = some (entry.kind?.getD former.kind)
  cardinality? : coerced.cardinality? = some (entry.cardinality?.getD former.cardinality)
  isArray_iff (value : Value) (held : coerced.value? = some value) :
    value.isArray = true ↔ coerced.cardinality = .set ∨ coerced.cardinality = .multiset
  not_isNull (value : Value) (held : coerced.value? = some value) : value.isNull = false
  /-- Dates are starts of days in the calendar. -/
  midnight (dates : coerced.kind = .date) (value : Value) (held : value ∈ coerced.members) :
    ∃ millis, value.millis? = some millis ∧ Instant.first ≤ millis.toInt ∧
      millis.toInt ≤ Instant.last ∧ 86400000 ∣ millis.toInt
  distinct (isSet : coerced.cardinality = .set) :
    coerced.values.Pairwise fun value other =>
      value.agrees other = false ∧ other.agrees value = false
  /-- The members of a list are what became of the former members, in their order. -/
  elements (multiple : former.isMultiple = true) :
    ∃ converted,
      List.Forall₂ (entry.Becomes atlas zone former.kind coerced.kind) former.values converted ∧
      coerced.value? = some (.array
        (if coerced.cardinality = .set then Value.firsts converted else converted))
  scalar (single : former.isMultiple = false) (old : Value) (held : former.value? = some old) :
    ∃ new, entry.Becomes atlas zone former.kind coerced.kind old new ∧
      coerced.value? = if new.isNull then none else some new
  absent (single : former.isMultiple = false) (nothing : former.value? = none) :
    coerced.value? = none

theorem conformList_ok {value : Value} (h : entry.conformList atlas zone former = .ok value) :
    ∃ converted, convertEach atlas former.kind (entry.target former) entry zone former.values =
        .ok converted ∧
      value = .array ((entry.cardinalityFor former).restrict converted) := by
  rw [conformList] at h
  have hconverted : (do
      let values ← convertEach atlas former.kind (entry.target former) entry zone former.values
      return .array ((entry.cardinalityFor former).restrict values)) =
        (Except.ok value : Except Halt Value) := by
    split at h
    · obtain ⟨_, _, hrest⟩ := bind_eq_ok_iff.mp h
      exact hrest
    · exact h
  obtain ⟨converted, hconvert, heq⟩ := bind_eq_ok_iff.mp hconverted
  exact ⟨converted, hconvert, (Except.ok.inj heq).symm⟩

theorem validate_of_mem {source target : Kind} {values converted : List Value}
    (h : List.Forall₂ (fun old new => convertChecked atlas source target entry zone old = .ok new)
      values converted) {new : Value} (hnew : new ∈ converted) :
    target.validate new = .ok () := by
  induction h with
  | nil => cases hnew
  | cons hfirst _ ih =>
    rcases List.mem_cons.mp hnew with rfl | hnew
    · exact (convertChecked_ok_iff.mp hfirst).2
    · exact ih hnew

theorem isMultiple_of_checkCardinality (h : entry.checkCardinality path former = .ok ())
    {found expected : Cardinality} (hfound : former.cardinality? = some found)
    (hexpected : entry.cardinality? = some expected) : found.isMultiple = expected.isMultiple := by
  rw [checkCardinality, hfound, hexpected] at h
  by_contra hne
  simp [hne] at h

theorem met_of_list {converted : List Value} (hmultiple : former.isMultiple = true)
    (hconvert : convertEach atlas former.kind (entry.target former) entry zone former.values =
      .ok converted)
    (hset : Attribute.set (.array ((entry.cardinalityFor former).restrict converted))
      (entry.target former) (entry.cardinalityFor former) = .ok coerced) :
    entry.Met atlas zone former coerced := by
  have hnull (value : Value) (held : coerced.value? = some value) :=
    (Attribute.not_isNull_of_set hset held).2
  have harray (value : Value) (held : coerced.value? = some value) :=
    Attribute.isArray_iff_of_set hset held
  have hpairs := convertEach_ok_iff.mp hconvert
  obtain ⟨rfl, _⟩ := Attribute.eq_of_set hset
  refine ⟨rfl, rfl, harray, hnull, ?_, ?_, ?_, ?_, ?_⟩
  · intro hdate value hvalue
    have hkind : entry.target former = .date := hdate
    have hkept : value ∈ converted := by
      have hmem : value ∈ (entry.cardinalityFor former).restrict converted := hvalue
      rw [Cardinality.restrict_eq] at hmem
      split at hmem
      · exact (Value.firstsAfter_sublist [] converted).subset hmem
      · exact hmem
    have hvalid := validate_of_mem hpairs hkept
    rw [hkind] at hvalid
    exact (Kind.validate_date_iff value).mp hvalid
  · intro hset
    have hcardinality : entry.cardinalityFor former = .set := hset
    show ((entry.cardinalityFor former).restrict converted).Pairwise _
    rw [Cardinality.restrict_eq, if_pos hcardinality]
    refine (Value.pairwise_firsts converted).imp fun {value other} hne => ⟨hne, ?_⟩
    rwa [Value.agrees_comm]
  · intro _
    refine ⟨converted, hpairs.imp fun old new hnew => (convertChecked_ok_iff.mp hnew).1, ?_⟩
    show some (Value.array ((entry.cardinalityFor former).restrict converted)) = _
    rw [Cardinality.restrict_eq]
    rfl
  · intro hsingle
    rw [hmultiple] at hsingle
    cases hsingle
  · intro hsingle
    rw [hmultiple] at hsingle
    cases hsingle

theorem met_of_scalar {held converted : Value} (hsingle : former.isMultiple = false)
    (hheld : former.value? = some held) (hcardinality : entry.cardinalityFor former = .single)
    (hconvert : convertChecked atlas former.kind (entry.target former) entry zone held = .ok converted)
    (hset : Attribute.set converted (entry.target former) .single = .ok coerced) :
    entry.Met atlas zone former coerced := by
  have hnull (value : Value) (held : coerced.value? = some value) :=
    (Attribute.not_isNull_of_set hset held).2
  have harray (value : Value) (held : coerced.value? = some value) :=
    Attribute.isArray_iff_of_set hset held
  have hmembers {value : Value} (held : value ∈ coerced.members) :=
    Attribute.eq_of_mem_members_of_single hset held
  obtain ⟨hconvert, hvalid⟩ := convertChecked_ok_iff.mp hconvert
  obtain ⟨rfl, _⟩ := Attribute.eq_of_set hset
  refine ⟨rfl, congrArg some hcardinality.symm, harray, hnull, ?_, ?_, ?_, ?_, ?_⟩
  · intro hdate value hvalue
    have hkind : entry.target former = .date := hdate
    rw [hkind] at hvalid
    rw [hmembers hvalue]
    exact (Kind.validate_date_iff converted).mp hvalid
  · intro hset
    cases hset
  · intro hmultiple
    rw [hsingle] at hmultiple
    cases hmultiple
  · intro _ old hold
    obtain rfl : held = old := Option.some.inj (hheld.symm.trans hold)
    exact ⟨converted, hconvert, rfl⟩
  · intro _ hnothing
    rw [hheld] at hnothing
    cases hnothing

theorem met_of_nothing (hsingle : former.isMultiple = false) (hnothing : former.value? = none)
    (hset : Attribute.set .null (entry.target former) (entry.cardinalityFor former) = .ok coerced) :
    entry.Met atlas zone former coerced := by
  obtain ⟨rfl, _⟩ := Attribute.eq_of_set hset
  refine ⟨rfl, rfl, ?_, ?_, ?_, ?_, ?_, ?_, ?_⟩
  · intro value hvalue
    cases hvalue
  · intro value hvalue
    cases hvalue
  · intro _ value hvalue
    cases hvalue
  · intro _
    exact .nil
  · intro hmultiple
    rw [hsingle] at hmultiple
    cases hmultiple
  · intro _ old hold
    rw [hnothing] at hold
    cases hold
  · intro _ _
    rfl

/-- Coercion of an attribute that declares how many values it holds does what the entry asks. -/
theorem met_of_conform (hdeclared : ∀ value, former.value? = some value →
      former.cardinality? = some former.cardinality)
    (h : entry.conform atlas zone path former = .ok coerced) :
    entry.Met atlas zone former coerced := by
  rw [conform] at h
  obtain ⟨_, hcardinality, h⟩ := bind_eq_ok_iff.mp h
  obtain ⟨_, hkind, h⟩ := bind_eq_ok_iff.mp h
  split at h
  · next hmultiple =>
    obtain ⟨value, hlist, hset⟩ := bind_eq_ok_iff.mp h
    obtain ⟨converted, hconvert, rfl⟩ := conformList_ok hlist
    exact met_of_list hmultiple hconvert (lift_eq_ok_iff.mp hset)
  · next hsingle =>
    rw [Bool.not_eq_true] at hsingle
    split at h
    · next held hheld =>
      obtain ⟨value, hconvert, hset⟩ := bind_eq_ok_iff.mp h
      have hone : former.cardinality = .single :=
        (Cardinality.isMultiple_eq_false_iff _).mp hsingle
      rw [hone, lift_eq_ok_iff] at hset
      refine met_of_scalar hsingle hheld ?_ hconvert hset
      rw [cardinalityFor]
      cases hexpected : entry.cardinality? with
      | none => exact hone
      | some expected =>
        have hsame :=
          isMultiple_of_checkCardinality (lift_eq_ok_iff.mp hcardinality) (hdeclared held hheld)
            hexpected
        rw [hone] at hsame
        exact (Cardinality.isMultiple_eq_false_iff expected).mp hsame.symm
    · next hnothing => exact met_of_nothing hsingle hnothing (lift_eq_ok_iff.mp h)

end Entry

end Conform
