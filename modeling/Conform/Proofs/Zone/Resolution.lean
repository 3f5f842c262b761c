import Conform.Proofs.Zone.Clocks
/-!
# Offsets of zones

What a text with the mark in it is resolved to, whatever regions there are. A
clock behind a sign, with numbers that may bear a sign of their own, gives its
seconds when they are less than a day; every other text gives no offset.
Only numbers far below zero stop the run, and no text does that has no second
sign.
-/

namespace Conform

namespace Greenwich

variable {text shown : List Char} {reading : Reading}

/-! ## Seconds step by step -/

/-- The seconds that a reading stands for, in exact numbers. -/
def Reading.seconds (reading : Reading) : Int :=
  let forward := reading.hours * 3600 + reading.minutes * 60
  if reading.west then -forward else forward

/-- What the steps to the seconds give, one after another, in exact numbers. -/
def Reading.steps (reading : Reading) : List Int :=
  [reading.hours * 3600, reading.minutes * 60, reading.hours * 3600 + reading.minutes * 60,
    reading.seconds]

theorem Reading.forall_mem_steps {p : Int → Prop} : (∀ n ∈ reading.steps, p n) ↔
    p (reading.hours * 3600) ∧ p (reading.minutes * 60) ∧
      p (reading.hours * 3600 + reading.minutes * 60) ∧ p reading.seconds := by
  simp [steps]

theorem fits_iff {n : Int} : Fits n ↔ -2147483648 ≤ n ∧ n ≤ 2147483647 := Iff.rfl

theorem fitted_eq_ok_iff {operation : Overflow} {n result : Int} :
    fitted operation n = .ok result ↔ Fits n ∧ result = n := by
  by_cases h : Fits n <;> simp [fitted, h, eq_comm]

theorem Reading.toSeconds_eq_ok_iff {seconds : Int} :
    reading.toSeconds = .ok seconds ↔
      (∀ n ∈ reading.steps, Fits n) ∧ seconds = reading.seconds := by
  have hbind {value : Int} {operation : Overflow} {next : Int → Except Overflow Int} :
      (fitted operation value >>= next) = .ok seconds ↔ Fits value ∧ next value = .ok seconds := by
    by_cases h : Fits value <;> simp [fitted, h, bind, Except.bind]
  rw [toSeconds, hbind, hbind, hbind, fitted_eq_ok_iff, forall_mem_steps]
  simp only [and_assoc]
  rfl

theorem Reading.InRange.fits_steps_iff (h : reading.InRange) :
    (∀ n ∈ reading.steps, Fits n) ↔ -596523 ≤ reading.hours ∧ -35791394 ≤ reading.minutes ∧
      -35791394 ≤ 60 * reading.hours + reading.minutes := by
  obtain ⟨-, -, hhours, hminutes⟩ := h
  simp only [forall_mem_steps, seconds, fits_iff]
  split <;> omega

/-- A clock whose seconds are less than a day, hours up to 23 and minutes up to 59. -/
structure Reading.Sound (reading : Reading) : Prop where
  hours_le : reading.hours ≤ 23
  minutes_le : reading.minutes ≤ 59
  above : -86400 < reading.seconds
  below : reading.seconds < 86400

theorem Reading.Sound.forward (h : reading.Sound) :
    -86400 < reading.hours * 3600 + reading.minutes * 60 ∧
      reading.hours * 3600 + reading.minutes * 60 < 86400 := by
  have habove := h.above
  have hbelow := h.below
  rw [seconds] at habove hbelow
  cases hwest : reading.west with
  | false => simp only [hwest, Bool.false_eq_true, if_false] at habove hbelow; omega
  | true => simp only [hwest, if_true] at habove hbelow; omega

theorem Reading.Sound.inRange (h : reading.Sound) : reading.InRange := by
  have hforward := h.forward
  obtain ⟨hhours, hminutes, -, -⟩ := h
  exact ⟨by rw [fits_iff]; omega, by rw [fits_iff]; omega, hhours, hminutes⟩

theorem Reading.Sound.fits_steps (h : reading.Sound) : ∀ n ∈ reading.steps, Fits n := by
  have hforward := h.forward
  rw [h.inRange.fits_steps_iff]
  obtain ⟨hhours, hminutes, -, -⟩ := h
  omega

/-! ## Offsets -/

theorem Offset.ofSeconds?_eq_some_iff {seconds : Int} {offset : Offset} :
    Offset.ofSeconds? seconds = some offset ↔ offset.seconds = seconds := by
  rw [ofSeconds?]
  split
  · next h =>
    rw [Option.some.injEq]
    constructor
    · rintro rfl
      rfl
    · rintro rfl
      rfl
  · next h =>
    simp only [reduceCtorEq, false_iff]
    rintro rfl
    exact h ⟨offset.above, offset.below⟩

theorem Shown.ne_nil {number : List Char → Int → Prop} (h : Shown number shown reading) :
    shown ≠ [] := by
  cases h with
  | east clock | west clock => exact List.cons_ne_nil _ _

theorem offset?_of_reading? (h : reading? text = some reading) :
    offset? text = reading.toSeconds.map Offset.ofSeconds? := by
  have hne := (reading?_eq_some_iff.mp h).1.ne_nil
  rw [offset?, if_neg (by simpa using hne), h]

theorem offset?_of_sound (hshown : Shown Signed (trimBlanks text) reading)
    (hsound : reading.Sound) :
    offset? text = .ok (some ⟨reading.seconds, hsound.above, hsound.below⟩) := by
  rw [offset?_of_reading? (reading?_eq_some_iff.mpr ⟨hshown, hsound.inRange⟩),
    Reading.toSeconds_eq_ok_iff.mpr ⟨hsound.fits_steps, rfl⟩]
  exact congrArg Except.ok (Offset.ofSeconds?_eq_some_iff.mpr rfl)

theorem offset?_of_not_sound
    (h : ∀ reading, Shown Signed (trimBlanks text) reading → ¬reading.Sound) {found? : Option Offset}
    (hok : offset? text = .ok found?) : (found?.getD .zero).seconds = 0 := by
  cases hreading : reading? text with
  | none =>
    rw [offset?, hreading] at hok
    split at hok <;> cases hok <;> rfl
  | some reading =>
    obtain ⟨hshown, hrange⟩ := reading?_eq_some_iff.mp hreading
    rw [offset?_of_reading? hreading] at hok
    cases hseconds : reading.toSeconds with
    | error overflow => rw [hseconds] at hok; cases hok
    | ok seconds =>
      rw [hseconds] at hok
      cases hok
      cases hoffset : Offset.ofSeconds? seconds with
      | none => rfl
      | some offset =>
        have hsame := Offset.ofSeconds?_eq_some_iff.mp hoffset
        rw [(Reading.toSeconds_eq_ok_iff.mp hseconds).2] at hsame
        exact absurd ⟨hrange.hours_le, hrange.minutes_le, hsame ▸ offset.above,
          hsame ▸ offset.below⟩ (h reading hshown)

/-- A run is stopped exactly by a clock whose steps leave the 32 bits. -/
theorem offset?_error_iff : (∃ overflow, offset? text = .error overflow) ↔
    ∃ reading, Shown Signed (trimBlanks text) reading ∧ reading.InRange ∧
      ¬∀ n ∈ reading.steps, Fits n := by
  constructor
  · rintro ⟨overflow, herror⟩
    cases hreading : reading? text with
    | none =>
      rw [offset?, hreading] at herror
      split at herror <;> cases herror
    | some reading =>
      obtain ⟨hshown, hrange⟩ := reading?_eq_some_iff.mp hreading
      refine ⟨reading, hshown, hrange, fun hfits => ?_⟩
      rw [offset?_of_reading? hreading,
        Reading.toSeconds_eq_ok_iff.mpr ⟨hfits, rfl⟩] at herror
      cases herror
  · rintro ⟨reading, hshown, hrange, hfits⟩
    rw [offset?_of_reading? (reading?_eq_some_iff.mpr ⟨hshown, hrange⟩)]
    cases hseconds : reading.toSeconds with
    | error overflow => exact ⟨overflow, rfl⟩
    | ok seconds => exact absurd (Reading.toSeconds_eq_ok_iff.mp hseconds).1 hfits

/-- The offset of a text as it is described: hours up to 23 and minutes up to 59 in digits behind a
sign, and no offset in every other text. A plus never leads to the west, a minus never to the
east. -/
structure Described (shown : List Char) (seconds : Int) : Prop where
  clock : ∀ reading, Shown Plain shown reading → reading.hours ≤ 23 → reading.minutes ≤ 59 →
    seconds = reading.seconds
  otherwise : (∀ reading, Shown Plain shown reading → ¬(reading.hours ≤ 23 ∧ reading.minutes ≤ 59)) →
    seconds = 0
  plus : shown.head? = some '+' → 0 ≤ seconds
  minus : shown.head? = some '-' → seconds ≤ 0

theorem Shown.sound (h : Shown Plain shown reading) (hhours : reading.hours ≤ 23)
    (hminutes : reading.minutes ≤ 59) : reading.Sound := by
  have hnonneg := h.nonneg
  refine ⟨hhours, hminutes, ?_, ?_⟩ <;> rw [Reading.seconds] <;> split <;> omega

theorem Shown.unique {other : Reading} (h : Shown Signed (trimBlanks text) reading)
    (hother : Shown Signed (trimBlanks text) other) (hrange : reading.InRange)
    (hrange' : other.InRange) : other = reading := by
  have hsame := reading?_eq_some_iff.mpr ⟨h, hrange⟩
  rw [reading?_eq_some_iff.mpr ⟨hother, hrange'⟩] at hsame
  exact Option.some.inj hsame

theorem described_zero
    (h : ∀ reading, Shown Plain shown reading → ¬(reading.hours ≤ 23 ∧ reading.minutes ≤ 59)) :
    Described shown 0 :=
  ⟨fun reading hreading hhours hminutes => absurd ⟨hhours, hminutes⟩ (h reading hreading),
    fun _ => rfl, fun _ => le_rfl, fun _ => le_rfl⟩

theorem Shown.sign (h : Shown Plain shown reading) :
    (shown.head? = some '+' → 0 ≤ reading.seconds) ∧
      (shown.head? = some '-' → reading.seconds ≤ 0) := by
  cases h with
  | @east cs hours minutes clock =>
    have hnonneg := clock.nonneg
    refine ⟨fun _ => ?_, fun hhead => absurd hhead (by simp)⟩
    show 0 ≤ hours * 3600 + minutes * 60
    omega
  | @west cs hours minutes clock =>
    have hnonneg := clock.nonneg
    refine ⟨fun hhead => absurd hhead (by simp), fun _ => ?_⟩
    show -(hours * 3600 + minutes * 60) ≤ 0
    omega

theorem Shown.described (h : Shown Plain (trimBlanks text) reading) (hsound : reading.Sound) :
    Described (trimBlanks text) reading.seconds := by
  refine ⟨fun other hother hhours hminutes => ?_, fun hnone => ?_, h.sign.1, h.sign.2⟩
  · have hsame := (h.mono fun _ _ => Signed.plain).unique (hother.mono fun _ _ => Signed.plain)
      hsound.inRange (hother.sound hhours hminutes).inRange
    rw [hsame]
  · exact absurd ⟨hsound.hours_le, hsound.minutes_le⟩ (hnone reading h)

end Greenwich

/-! ## Zones -/

/-- Greenwich, and London in the summer of 2024 an hour ahead of it. -/
def Atlas.london : Atlas where
  isKnown name := name == "UTC" || name == "Europe/London"
  secondsAt name millis :=
    if name = "Europe/London" ∧ 1711846800000 ≤ millis ∧ millis < 1729990800000 then 3600 else 0
  withinDay name millis := by
    split <;> decide

namespace Zone

open Greenwich

variable {atlas : Atlas} {text : String}

/-- The zone that a text names, if any, with its seconds in exact numbers. -/
inductive Exact (atlas : Atlas) (text : String) : Option Zone → Prop where
  | region (known : atlas.isKnown text = true) : Exact atlas text (some (region text))
  | nothing (unknown : atlas.isKnown text = false) (unmarked : ¬mark <:+: text.toList) :
      Exact atlas text none
  | clock {before rest reading} (unknown : atlas.isKnown text = false)
      (behind : text.toList = before ++ mark ++ rest) (first : ¬mark <:+: before)
      (shown : Shown Signed (trimBlanks rest) reading) (inRange : reading.InRange) :
      Exact atlas text (some (fixed text ((Offset.ofSeconds? reading.seconds).getD .zero)))
  | unclear {before rest} (unknown : atlas.isKnown text = false)
      (behind : text.toList = before ++ mark ++ rest) (first : ¬mark <:+: before)
      (unread : ∀ reading, Shown Signed (trimBlanks rest) reading → ¬reading.InRange) :
      Exact atlas text (some (fixed text .zero))

variable {before rest : List Char}

theorem resolve_of_isKnown (hregion : atlas.isKnown text = true) :
    resolve atlas text = .ok (some (region text)) := by
  rw [resolve, if_pos hregion]

theorem resolve_of_unmarked (hregion : atlas.isKnown text = false)
    (hmark : ¬mark <:+: text.toList) : resolve atlas text = .ok none := by
  rw [← isSome_afterMark?_iff, Bool.not_eq_true, Option.isSome_eq_false_iff,
    Option.isNone_iff_eq_none] at hmark
  rw [resolve, if_neg (by simp [hregion]), hmark]

theorem resolve_of_mark (hregion : atlas.isKnown text = false)
    (htext : text.toList = before ++ mark ++ rest) (hfirst : ¬mark <:+: before) :
    resolve atlas text =
      (offset? rest).map fun found? => some (fixed text (found?.getD .zero)) := by
  rw [resolve, if_neg (by simp [hregion]), htext, afterMark?_append hfirst]

theorem isKnown_or_mark (atlas : Atlas) (text : String) :
    atlas.isKnown text = true ∨
    (atlas.isKnown text = false ∧ ¬mark <:+: text.toList) ∨
    (atlas.isKnown text = false ∧ ∃ before rest,
      text.toList = before ++ mark ++ rest ∧ ¬mark <:+: before) := by
  cases hregion : atlas.isKnown text with
  | true => exact .inl rfl
  | false =>
    refine .inr ?_
    cases hmark : afterMark? text.toList with
    | none =>
      refine .inl ⟨rfl, fun hinfix => ?_⟩
      rw [← isSome_afterMark?_iff, hmark] at hinfix
      cases hinfix
    | some rest =>
      obtain ⟨before, htext, hfirst⟩ := afterMark?_eq_some_iff.mp hmark
      exact .inr ⟨rfl, before, rest, htext, hfirst⟩

theorem resolve_eq_none_iff :
    resolve atlas text = .ok none ↔ atlas.isKnown text = false ∧ ¬mark <:+: text.toList := by
  constructor
  · intro hnone
    rcases isKnown_or_mark atlas text with hknown | hneither | ⟨hregion, before, rest, htext, hfirst⟩
    · rw [resolve_of_isKnown hknown] at hnone
      cases hnone
    · exact hneither
    · rw [resolve_of_mark hregion htext hfirst] at hnone
      obtain ⟨found?, -, hsome⟩ := map_eq_ok_iff.mp hnone
      cases hsome
  · rintro ⟨hregion, hmark⟩
    exact resolve_of_unmarked hregion hmark

theorem resolve_of_sound {reading : Reading} (hregion : atlas.isKnown text = false)
    (htext : text.toList = before ++ mark ++ rest) (hfirst : ¬mark <:+: before)
    (hshown : Shown Signed (trimBlanks rest) reading) (hsound : reading.Sound) : ∃ offset,
      resolve atlas text = .ok (some (fixed text offset)) ∧ offset.seconds = reading.seconds := by
  rw [resolve_of_mark hregion htext hfirst, offset?_of_sound hshown hsound]
  exact ⟨_, rfl, rfl⟩

theorem resolve_of_not_sound {zone? : Option Zone} (hregion : atlas.isKnown text = false)
    (htext : text.toList = before ++ mark ++ rest) (hfirst : ¬mark <:+: before)
    (hnot : ∀ reading, Shown Signed (trimBlanks rest) reading → ¬reading.Sound)
    (hok : resolve atlas text = .ok zone?) :
    ∃ offset, zone? = some (fixed text offset) ∧ offset.seconds = 0 := by
  rw [resolve_of_mark hregion htext hfirst] at hok
  obtain ⟨found?, hoffset, rfl⟩ := map_eq_ok_iff.mp hok
  exact ⟨_, rfl, offset?_of_not_sound hnot hoffset⟩

/-- A text that names no region and has the mark in it is a fixed zone of that name. Behind the mark
a clock of less than a day gives its seconds and every other text gives none, unless the run is
stopped. Without a second sign the run is never stopped, and the offset is the described one. -/
theorem resolve_behind_mark (hregion : atlas.isKnown text = false)
    (htext : text.toList = before ++ mark ++ rest) (hfirst : ¬mark <:+: before) :
    let shown := trimBlanks rest
    (∀ reading, Shown Signed shown reading → reading.Sound → ∃ offset,
      resolve atlas text = .ok (some (fixed text offset)) ∧ offset.seconds = reading.seconds) ∧
    ((∀ reading, Shown Signed shown reading → ¬reading.Sound) → ∀ zone?,
      resolve atlas text = .ok zone? →
        ∃ offset, zone? = some (fixed text offset) ∧ offset.seconds = 0) ∧
    ((∀ c ∈ shown.tail, c ≠ '+' ∧ c ≠ '-') → ∃ offset,
      resolve atlas text = .ok (some (fixed text offset)) ∧ Described shown offset.seconds) := by
  intro shown
  refine ⟨fun _ => resolve_of_sound hregion htext hfirst,
    fun hnot _ => resolve_of_not_sound hregion htext hfirst hnot, fun hsigns => ?_⟩
  by_cases hclock : ∃ reading, Shown Plain shown reading ∧ reading.hours ≤ 23 ∧ reading.minutes ≤ 59
  · obtain ⟨reading, hplain, hhours, hminutes⟩ := hclock
    have hsound := hplain.sound hhours hminutes
    obtain ⟨offset, hok, hseconds⟩ :=
      resolve_of_sound hregion htext hfirst (hplain.mono fun _ _ => .plain) hsound
    exact ⟨offset, hok, hseconds ▸ hplain.described hsound⟩
  · have hnot (reading : Reading) (hplain : Shown Plain shown reading) :
        ¬(reading.hours ≤ 23 ∧ reading.minutes ≤ 59) :=
      fun hle => hclock ⟨reading, hplain, hle⟩
    have hreading : reading? rest = none := by
      rw [Option.eq_none_iff_forall_not_mem]
      intro reading hreading
      obtain ⟨hshown, hrange⟩ := reading?_eq_some_iff.mp hreading
      exact hnot reading (hshown.plain hsigns) ⟨hrange.hours_le, hrange.minutes_le⟩
    have hok : ∃ zone?, resolve atlas text = .ok zone? := by
      rw [resolve_of_mark hregion htext hfirst, offset?, hreading]
      split <;> exact ⟨_, rfl⟩
    obtain ⟨zone?, hok⟩ := hok
    obtain ⟨offset, rfl, hzero⟩ := resolve_of_not_sound hregion htext hfirst
      (fun reading hshown hsound =>
        hnot reading (hshown.plain hsigns) ⟨hsound.hours_le, hsound.minutes_le⟩) hok
    exact ⟨offset, hok, hzero ▸ described_zero hnot⟩

theorem resolve_behind_mark_half_past : Atlas.london.isKnown "GMT-0530" = false ∧
    ∃ offset, resolve .london "GMT-0530" = .ok (some (fixed "GMT-0530" offset)) ∧
      offset.seconds = -19800 := by
  have hregion : Atlas.london.isKnown "GMT-0530" = false := by decide
  have hresolved := @resolve_behind_mark .london "GMT-0530" [] ['-', '0', '5', '3', '0'] hregion rfl
    (by simp [mark])
  have hclock : Clock Signed (['0', '5'] ++ ['3', '0']) 5 30 :=
    .joined rfl (.plain ⟨by simp, by simp, rfl⟩) (.plain ⟨by simp, by simp, rfl⟩)
  have hshown : Shown Signed ['-', '0', '5', '3', '0'] ⟨true, 5, 30⟩ := .west hclock
  exact ⟨hregion, hresolved.1 _ hshown ⟨by decide, by decide, by decide, by decide⟩⟩

/-- A second sign leads from a plus to the west. -/
theorem resolve_second_sign : ¬∀ (atlas : Atlas) (text : String) (before rest : List Char),
    atlas.isKnown text = false → text.toList = before ++ mark ++ rest → ¬mark <:+: before →
      ∃ offset, resolve atlas text = .ok (some (fixed text offset)) ∧
        Described (trimBlanks rest) offset.seconds := by
  intro h
  have hregion : Atlas.london.isKnown "GMT+-5:00" = false := by decide
  obtain ⟨offset, hok, hdescribed⟩ :=
    h .london "GMT+-5:00" [] ['+', '-', '5', ':', '0', '0'] hregion rfl (by simp [mark])
  have hwest : resolve .london "GMT+-5:00" =
      .ok (some (fixed "GMT+-5:00" ⟨-18000, by decide, by decide⟩)) := rfl
  rw [hwest, Except.ok.injEq, Option.some.injEq, fixed.injEq] at hok
  obtain ⟨-, rfl⟩ := hok
  exact absurd (hdescribed.plus rfl) (by decide)

theorem resolve_error_iff : (∃ overflow, resolve atlas text = .error overflow) ↔
    atlas.isKnown text = false ∧ ∃ before rest reading,
      text.toList = before ++ mark ++ rest ∧ ¬mark <:+: before ∧
      Shown Signed (trimBlanks rest) reading ∧ reading.InRange ∧ ¬∀ n ∈ reading.steps, Fits n := by
  constructor
  · rintro ⟨overflow, herror⟩
    rcases isKnown_or_mark atlas text with
      hknown | ⟨hregion, hmark⟩ | ⟨hregion, before, rest, htext, hfirst⟩
    · rw [resolve_of_isKnown hknown] at herror
      cases herror
    · rw [resolve_of_unmarked hregion hmark] at herror
      cases herror
    · rw [resolve_of_mark hregion htext hfirst] at herror
      obtain ⟨reading, hreading⟩ := offset?_error_iff.mp ⟨overflow, map_eq_error_iff.mp herror⟩
      exact ⟨hregion, before, rest, reading, htext, hfirst, hreading⟩
  · rintro ⟨hregion, before, rest, reading, htext, hfirst, hreading⟩
    obtain ⟨overflow, hoffset⟩ := offset?_error_iff.mpr ⟨reading, hreading⟩
    rw [resolve_of_mark hregion htext hfirst]
    exact ⟨overflow, map_eq_error_iff.mpr hoffset⟩

/-- A run that is not stopped gives the zone of exact numbers. -/
theorem exact_of_resolve {zone? : Option Zone} (hok : resolve atlas text = .ok zone?) :
    Exact atlas text zone? := by
  rcases isKnown_or_mark atlas text with
    hknown | ⟨hregion, hmark⟩ | ⟨hregion, before, rest, htext, hfirst⟩
  · rw [resolve_of_isKnown hknown, Except.ok.injEq] at hok
    exact hok ▸ .region hknown
  · rw [resolve_of_unmarked hregion hmark, Except.ok.injEq] at hok
    exact hok ▸ .nothing hregion hmark
  · rw [resolve_of_mark hregion htext hfirst] at hok
    obtain ⟨found?, hoffset, rfl⟩ := map_eq_ok_iff.mp hok
    cases hreading : reading? rest with
    | none =>
      have hzero : found?.getD .zero = .zero := by
        rw [Greenwich.offset?, hreading] at hoffset
        split at hoffset <;> cases hoffset <;> rfl
      rw [hzero]
      refine .unclear hregion htext hfirst fun reading hshown hrange => ?_
      rw [reading?_eq_some_iff.mpr ⟨hshown, hrange⟩] at hreading
      cases hreading
    | some reading =>
      obtain ⟨hshown, hrange⟩ := reading?_eq_some_iff.mp hreading
      rw [offset?_of_reading? hreading] at hoffset
      obtain ⟨seconds, hseconds, rfl⟩ := map_eq_ok_iff.mp hoffset
      rw [(Reading.toSeconds_eq_ok_iff.mp hseconds).2]
      exact .clock hregion htext hfirst hshown hrange

/-- A run is stopped exactly at a clock with a number far below zero. In a run that is not stopped
every step fits, the zone is the one of exact numbers, and no fixed offset reaches a day. -/
theorem resolve_stops_iff (atlas : Atlas) (text : String) :
    ((∃ overflow, resolve atlas text = .error overflow) ↔
      atlas.isKnown text = false ∧ ∃ before rest reading,
        text.toList = before ++ mark ++ rest ∧ ¬mark <:+: before ∧
        Shown Signed (trimBlanks rest) reading ∧ reading.InRange ∧
        (reading.hours < -596523 ∨ reading.minutes < -35791394 ∨
          60 * reading.hours + reading.minutes < -35791394)) ∧
    ∀ zone?, resolve atlas text = .ok zone? → Exact atlas text zone? ∧
      (∀ before rest reading, atlas.isKnown text = false → text.toList = before ++ mark ++ rest →
        ¬mark <:+: before → Shown Signed (trimBlanks rest) reading → reading.InRange →
          ∀ n ∈ reading.steps, Fits n) ∧
      ∀ id offset, zone? = some (fixed id offset) →
        -86400 < offset.seconds ∧ offset.seconds < 86400 := by
  refine ⟨?_, fun zone? hok => ⟨exact_of_resolve hok, ?_, ?_⟩⟩
  · rw [resolve_error_iff]
    refine and_congr_right fun _ => exists_congr fun before => exists_congr fun rest =>
      exists_congr fun reading => and_congr_right fun _ => and_congr_right fun _ =>
      and_congr_right fun _ => and_congr_right fun hrange => ?_
    rw [hrange.fits_steps_iff]
    omega
  · intro before rest reading hregion htext hfirst hshown hrange
    by_contra hfits
    obtain ⟨overflow, herror⟩ := resolve_error_iff.mpr
      ⟨hregion, before, rest, reading, htext, hfirst, hshown, hrange, hfits⟩
    rw [herror] at hok
    cases hok
  · intro id offset _
    exact ⟨offset.above, offset.below⟩

/-- The steps of this clock leave the 32 bits, and the run is stopped. -/
theorem resolve_stopped :
    ¬∀ atlas text, ∃ zone?, resolve atlas text = .ok zone? ∧
      ∀ before rest reading, text.toList = before ++ mark ++ rest → ¬mark <:+: before →
        reading? rest = some reading → ∀ n ∈ reading.steps, Fits n := by
  intro h
  obtain ⟨zone?, hok, -⟩ := h .london "GMT+-2147483648:0"
  have hstopped : resolve .london "GMT+-2147483648:0" = .error .multiplication := rfl
  rw [hstopped] at hok
  cases hok

end Zone

end Conform
