import Mathlib.Data.List.FinRange
import Conform.Proofs.Value.Agreement
/-!
# Lists of distinct values

What a set makes of a list, told from the list alone: the values at the places
before which none agrees with them. Values left out on the way are compared
with nothing afterwards, but a value that agrees with one of them agrees with
the one that was kept in its stead. What agrees with nothing, not even with
itself, is kept at every place.
-/

namespace Conform

namespace Value

/-- The places of a list whose value agrees with none of some values and with none before it. -/
def newPlaces (before values : List Value) : List (Fin values.length) :=
  (List.finRange values.length).filter fun place =>
    !(before ++ values.take place).any (·.agrees (values.get place))

theorem newPlaces_cons (before : List Value) (value : Value) (rest : List Value) :
    newPlaces before (value :: rest) =
      (if before.any (·.agrees value) then [] else [0]) ++
        (newPlaces (before ++ [value]) rest).map Fin.succ := by
  have hsame : ∀ place : Fin rest.length,
      (before ++ (value :: rest).take place.succ).any (·.agrees ((value :: rest).get place.succ)) =
        (before ++ [value] ++ rest.take place).any (·.agrees (rest.get place)) := by
    intro place
    simp
  unfold newPlaces
  simp only [List.length_cons, List.finRange_succ, List.filter_cons, List.filter_map,
    Function.comp_def, hsame]
  cases hseen : before.any (·.agrees value) <;> simp [hseen]

theorem firstsAfter_eq_map (before values : List Value) :
    firstsAfter before values = (newPlaces before values).map values.get := by
  induction values generalizing before with
  | nil => rfl
  | cons value rest ih =>
    rw [newPlaces_cons, firstsAfter, ih]
    cases before.any (·.agrees value) <;> simp [Function.comp_def]

theorem mem_newPlaces_iff {values : List Value} {place : Fin values.length} :
    place ∈ newPlaces [] values ↔
      ∀ earlier < place, (values.get earlier).agrees (values.get place) = false := by
  rw [newPlaces, List.mem_filter]
  simp only [List.mem_finRange, true_and, List.nil_append, Bool.not_eq_true', List.any_eq_false,
    List.mem_take_iff_getElem, Bool.not_eq_true]
  constructor
  · intro h earlier hearlier
    exact h _ ⟨earlier, Nat.lt_min.mpr ⟨hearlier, earlier.isLt⟩, rfl⟩
  · rintro h _ ⟨earlier, hearlier, rfl⟩
    obtain ⟨hbefore, hlength⟩ := Nat.lt_min.mp hearlier
    exact h ⟨earlier, hlength⟩ hbefore

/-- A value that agrees with itself has a first occurrence, or one came before all of them. -/
theorem exists_mem_firstsAfter (before : List Value) {values : List Value} {value : Value}
    (hvalue : value ∈ values) (hself : value.agrees value = true) :
    (∃ first ∈ firstsAfter before values, first.agrees value = true) ∨
      before.any (·.agrees value) = true := by
  induction values generalizing before with
  | nil => cases hvalue
  | cons next rest ih =>
    have hnext : next.agrees value = true → (∃ first ∈ firstsAfter before (next :: rest),
        first.agrees value = true) ∨ before.any (·.agrees value) = true := by
      intro hagrees
      by_cases hseen : before.any (·.agrees next) = true
      · exact .inr (any_agrees_congr (by rwa [agrees_comm]) hseen)
      · rw [firstsAfter, if_neg hseen]
        exact .inl ⟨next, List.mem_cons_self, hagrees⟩
    rcases List.mem_cons.mp hvalue with rfl | hvalue
    · exact hnext hself
    · rcases ih (before ++ [next]) hvalue with ⟨first, hfirst, hagrees⟩ | hseen
      · refine .inl ⟨first, ?_, hagrees⟩
        rw [firstsAfter]
        split
        · exact hfirst
        · exact List.mem_cons_of_mem _ hfirst
      · rw [List.any_append, Bool.or_eq_true] at hseen
        rcases hseen with hseen | hseen
        · exact .inr hseen
        · exact hnext (by simpa using hseen)

theorem exists_mem_firsts {values : List Value} {value : Value} (hvalue : value ∈ values)
    (hself : value.agrees value = true) : ∃ first ∈ firsts values, first.agrees value = true := by
  rcases exists_mem_firstsAfter [] hvalue hself with hfirst | hseen
  · exact hfirst
  · cases hseen

end Value

namespace Cardinality

/-- A set keeps, in their order, the values at exactly the places before which no value of the list
agrees with them. So no two of those it keeps agree, every value that agrees with itself agrees with
one of them, and a second time nothing is left out. -/
theorem restrict_set (values : List Value) :
    (∃ places : List (Fin values.length), places.Pairwise (· < ·) ∧
      (∀ place, place ∈ places ↔
        ∀ earlier < place, (values.get earlier).agrees (values.get place) = false) ∧
      set.restrict values = places.map values.get) ∧
    ((set.restrict values).Pairwise fun value other =>
      value.agrees other = false ∧ other.agrees value = false) ∧
    (∀ value ∈ values, value.agrees value = true →
      ∃ kept ∈ set.restrict values, kept.agrees value = true) ∧
    set.restrict (set.restrict values) = set.restrict values := by
  have hrestrict : ∀ values, set.restrict values = Value.firsts values := fun values =>
    set.restrict_eq values
  simp only [hrestrict]
  refine ⟨⟨Value.newPlaces [] values, ?_, fun place => Value.mem_newPlaces_iff,
    Value.firstsAfter_eq_map [] values⟩, ?_, fun value => Value.exists_mem_firsts,
    Value.firsts_eq_self (Value.pairwise_firsts values)⟩
  · exact (List.pairwise_lt_finRange values.length).filter _
  · refine (Value.pairwise_firsts values).imp fun {value other} hnot => ⟨hnot, ?_⟩
    rwa [Value.agrees_comm]

private def mixed : List Value :=
  [.array [.float ⟨0⟩], .float .nan, .array [.float ⟨0x8000000000000000⟩], .integer 3, .float .nan,
    .array [.array [.float .nan]], .integer 3, .array [.array [.float .nan]]]

theorem restrict_set_mixed :
    set.restrict mixed = [.array [.float ⟨0⟩], .float .nan, .integer 3, .float .nan,
      .array [.array [.float .nan]], .array [.array [.float .nan]]] ∧
    Value.array [.float ⟨0x8000000000000000⟩] ∈ mixed ∧
    (Value.array [.float ⟨0x8000000000000000⟩]).agrees (.array [.float ⟨0x8000000000000000⟩]) =
      true ∧
    (∃ kept ∈ set.restrict mixed, kept.agrees (.array [.float ⟨0x8000000000000000⟩]) = true) ∧
    set.restrict (set.restrict mixed) = set.restrict mixed := by
  have hmem : Value.array [.float ⟨0x8000000000000000⟩] ∈ mixed := by simp [mixed]
  have hself : (Value.array [.float ⟨0x8000000000000000⟩]).agrees
      (.array [.float ⟨0x8000000000000000⟩]) = true := rfl
  obtain ⟨_, _, hcovers, hagain⟩ := restrict_set mixed
  exact ⟨rfl, hmem, hself, hcovers _ hmem hself, hagain⟩

end Cardinality

end Conform
