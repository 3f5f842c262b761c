import Conform.Entry
import Conform.Proofs.Zone.Resolution
/-!
# Zones in options

The zone that the option of an entry names. The option may be missing or null,
it may name no zone, and its text may stop the run that works the zone out.
-/

namespace Conform

open Greenwich

/-- A null, the name of a region, or a text with the mark in it. -/
inductive Value.NamesZone (atlas : Atlas) : Value → Prop where
  | null : NamesZone atlas .null
  | region {text} (known : atlas.isKnown text = true) : NamesZone atlas (.string text)
  | marked {text} (mark : mark <:+: text.toList) : NamesZone atlas (.string text)

instance (atlas : Atlas) : (value : Value) → Decidable (value.NamesZone atlas)
  | .null => .isTrue .null
  | .string text =>
    decidable_of_iff (atlas.isKnown text = true ∨ (afterMark? text.toList).isSome = true)
      ⟨fun h => h.elim .region fun hmark => .marked (isSome_afterMark?_iff.mp hmark), fun h => by
        cases h with
        | region known => exact .inl known
        | marked mark => exact .inr (isSome_afterMark?_iff.mpr mark)⟩
  | .boolean _ | .integer _ | .float _ | .array _ | .binary _ => .isFalse nofun

theorem Value.namesZone_string_iff {atlas : Atlas} {text : String} :
    (Value.string text).NamesZone atlas ↔ Zone.resolve atlas text ≠ .ok none := by
  rw [ne_eq, Zone.resolve_eq_none_iff]
  constructor
  · rintro h ⟨hunknown, hunmarked⟩
    cases h with
    | region known =>
      rw [hunknown] at known
      cases known
    | marked mark => exact hunmarked mark
  · intro h
    cases hknown : atlas.isKnown text with
    | true => exact .region hknown
    | false =>
      by_contra hnot
      exact h ⟨hknown, fun hmark => hnot (.marked hmark)⟩

namespace Entry

variable {atlas : Atlas} {entry : Entry}

/-- The zone that the option of an entry names: none where there is no option or a null in it, else
the zone of its text. -/
inductive Names (atlas : Atlas) (entry : Entry) : Option Zone → Prop where
  | absent (option : entry.options.get? Zone.optionName = none) : Names atlas entry none
  | null (option : entry.options.get? Zone.optionName = some .null) : Names atlas entry none
  | zone {text zone} (option : entry.options.get? Zone.optionName = some (.string text))
      (resolved : Zone.resolve atlas text = .ok (some zone)) : Names atlas entry (some zone)

/-- Why an option gives no zone: its value names none, or its text stops the run. -/
inductive Zoneless (atlas : Atlas) (entry : Entry) : Halt → Prop where
  | illegal {value} (option : entry.options.get? Zone.optionName = some value)
      (zoneless : ¬value.NamesZone atlas) :
      Zoneless atlas entry (.failure (.illegalOption value.text Zone.optionName))
  | stopped {text overflow} (option : entry.options.get? Zone.optionName = some (.string text))
      (stops : Zone.resolve atlas text = .error overflow) : Zoneless atlas entry (.overflow overflow)

theorem Names.zone? {own? : Option Zone} (h : entry.Names atlas own?) :
    entry.zone? atlas = .ok own? := by
  cases h with
  | absent option => rw [Entry.zone?, option]
  | null option =>
    rw [Entry.zone?, option]
    rfl
  | zone option resolved =>
    rw [Entry.zone?, option]
    simp only [Value.isNull, Value.string?, Option.elim_some, resolved, Bool.false_eq_true, if_false]

theorem Zoneless.zone? {halt : Halt} (h : entry.Zoneless atlas halt) :
    entry.zone? atlas = .error halt := by
  cases h with
  | @illegal value option zoneless =>
    rw [Entry.zone?, option]
    cases value with
    | null => exact absurd .null zoneless
    | string text =>
      rw [Value.namesZone_string_iff, ne_eq, not_not] at zoneless
      simp only [Value.isNull, Value.string?, Option.elim_some, zoneless, Bool.false_eq_true,
        if_false]
    | _ => rfl
  | stopped option stops =>
    rw [Entry.zone?, option]
    simp only [Value.isNull, Value.string?, Option.elim_some, stops, Bool.false_eq_true, if_false]

theorem names_or_zoneless (atlas : Atlas) (entry : Entry) :
    (∃ own?, entry.Names atlas own?) ∨ ∃ halt, entry.Zoneless atlas halt := by
  cases hoption : entry.options.get? Zone.optionName with
  | none => exact .inl ⟨none, .absent hoption⟩
  | some value =>
    by_cases hnames : value.NamesZone atlas
    · cases value with
      | null => exact .inl ⟨none, .null hoption⟩
      | string text =>
        rw [Value.namesZone_string_iff] at hnames
        cases hresolve : Zone.resolve atlas text with
        | error overflow => exact .inr ⟨_, .stopped hoption hresolve⟩
        | ok zone? =>
          cases zone? with
          | none => exact absurd hresolve hnames
          | some zone => exact .inl ⟨some zone, .zone hoption hresolve⟩
      | _ => cases hnames
    · exact .inr ⟨_, .illegal hoption hnames⟩

theorem zone?_ok_iff {own? : Option Zone} :
    entry.zone? atlas = .ok own? ↔ entry.Names atlas own? := by
  constructor
  · intro h
    rcases names_or_zoneless atlas entry with ⟨other?, hnames⟩ | ⟨halt, hzoneless⟩
    · rw [hnames.zone?, Except.ok.injEq] at h
      exact h ▸ hnames
    · rw [hzoneless.zone?] at h
      cases h
  · exact Names.zone?

theorem zone?_error_iff {halt : Halt} :
    entry.zone? atlas = .error halt ↔ entry.Zoneless atlas halt := by
  constructor
  · intro h
    rcases names_or_zoneless atlas entry with ⟨own?, hnames⟩ | ⟨other, hzoneless⟩
    · rw [hnames.zone?] at h
      cases h
    · rw [hzoneless.zone?, Except.error.injEq] at h
      exact h ▸ hzoneless
  · exact Zoneless.zone?

end Entry

end Conform
