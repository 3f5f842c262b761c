import Conform.Coercion
import Conform.Proofs.Zone.Options
/-!
# Local times

A number that becomes a time loses the offset of its zone. The subtraction is
done in 64 bits without a guard. It is exact for every number, because offsets
are of less than a day and there are none outside the calendar, whose ends are
further than a day from those of the 64 bits.
-/

namespace Conform

namespace Zone

variable (atlas : Atlas)

theorem withinDay_secondsAt (zone : Zone) (millis : Int) :
    -86400 < zone.secondsAt atlas millis ∧ zone.secondsAt atlas millis < 86400 := by
  cases zone with
  | region name => exact atlas.withinDay name millis
  | fixed id offset => exact ⟨offset.above, offset.below⟩

/-! ## The subtraction -/

/-- The milliseconds that the clocks of a zone are ahead of Greenwich, in exact numbers; none where
an instant has no date. -/
def millisAhead (zone : Zone) (millis : Int) : Int :=
  if Instant.first ≤ millis ∧ millis ≤ Instant.last then zone.secondsAt atlas millis * 1000 else 0

theorem toInt_offsetAt (zone : Zone) (millis : Int64) :
    (zone.offsetAt atlas millis).toInt = zone.millisAhead atlas millis.toInt := by
  simp only [offsetAt, millisAhead, Instant.inCalendar, Bool.and_eq_true, decide_eq_true_eq]
  split
  · have hday := zone.withinDay_secondsAt atlas millis.toInt
    exact Int64.toInt_ofInt_of_le (by omega) (by omega)
  · rfl

/-- What is left of an instant fits into 64 bits: either the instant is in the calendar, far from
their ends, or nothing is taken away. -/
theorem millisAhead_fits (zone : Zone) (millis : Int64) :
    -2 ^ 63 ≤ millis.toInt - zone.millisAhead atlas millis.toInt ∧
      millis.toInt - zone.millisAhead atlas millis.toInt < 2 ^ 63 := by
  rw [millisAhead]
  split
  · next hcalendar =>
    have hday := zone.withinDay_secondsAt atlas millis.toInt
    rw [Instant.first, Instant.last] at hcalendar
    omega
  · rw [sub_zero]
    exact ⟨millis.le_toInt, millis.toInt_lt⟩

theorem toInt_sub_offsetAt (zone : Zone) (millis : Int64) :
    (millis - zone.offsetAt atlas millis).toInt =
      millis.toInt - zone.millisAhead atlas millis.toInt := by
  have hfits := zone.millisAhead_fits atlas millis
  rw [Int64.toInt_sub, toInt_offsetAt]
  exact Int.bmod_eq_of_le hfits.1 hfits.2

end Zone

/-- A number that becomes a time is its milliseconds less those that the entry's zone, else the
default zone, is ahead of Greenwich. No number is close enough to the ends of the 64 bits for the
subtraction to leave them. -/
theorem convert_number_time {atlas : Atlas} {value : Value} {millis : Int64} {entry : Entry}
    {own? : Option Zone} (hmillis : value.millis? = some millis) (hown : entry.Names atlas own?)
    (zone : Zone) :
    ∃ shifted : Int64, convert atlas .number .time value entry zone = .ok (.integer shifted) ∧
      shifted.toInt = millis.toInt - (own?.getD zone).millisAhead atlas millis.toInt := by
  refine ⟨millis - (own?.getD zone).offsetAt atlas millis, ?_, Zone.toInt_sub_offsetAt atlas _ _⟩
  rw [convert, Value.millisFor, hmillis, hown.zone?]
  rfl

theorem convert_number_time_summer :
    let entry := (Entry.ofKind .time).withOption Zone.optionName (.string "Europe/London")
    Value.millis? (.integer 1719792000000) = some 1719792000000 ∧
      entry.Names .london (some (.region "Europe/London")) ∧
      ∃ shifted : Int64, convert .london .number .time (.integer 1719792000000) entry .utc =
        .ok (.integer shifted) ∧ shifted.toInt = 1719788400000 := by
  intro entry
  have hmillis : Value.millis? (.integer 1719792000000) = some 1719792000000 := rfl
  have hown : entry.Names .london (some (.region "Europe/London")) := .zone rfl rfl
  exact ⟨hmillis, hown, convert_number_time hmillis hown .utc⟩

end Conform
