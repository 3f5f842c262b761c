import Conform.Zone
import Mathlib.Data.Nat.Digits.Defs
/-!
# Clocks in texts

How hours and minutes may stand behind a sign: hours alone in one or two
characters, minutes in the last two of more, or both parted by a colon. The
numbers in these places may be rows of digits or bear a sign of their own, and
the reader of offsets takes both.
-/

namespace Conform.Greenwich

/-! ## The mark -/

def mark : List Char := ['G', 'M', 'T']

theorem afterMark?_mark (rest : List Char) : afterMark? (mark ++ rest) = some rest := rfl

theorem afterMark?_cons {c : Char} {cs : List Char} (h : ¬mark <+: c :: cs) :
    afterMark? (c :: cs) = afterMark? cs := by
  rw [afterMark?]
  exact if_neg fun hbegins => h (List.isPrefixOf_iff_prefix.mp hbegins)

theorem isPrefix_of_isPrefix_append_mark {c : Char} {before rest : List Char}
    (h : mark <+: c :: before ++ mark ++ rest) : mark <+: c :: before := by
  obtain ⟨behind, heq⟩ := h
  match before, heq with
  | [], heq => simp [mark] at heq
  | [_], heq => simp [mark] at heq
  | second :: third :: others, heq =>
    simp only [mark, List.cons_append, List.nil_append, List.cons.injEq] at heq
    obtain ⟨rfl, rfl, rfl, -⟩ := heq
    exact List.prefix_append mark others

theorem afterMark?_append {before rest : List Char} (h : ¬mark <:+: before) :
    afterMark? (before ++ mark ++ rest) = some rest := by
  induction before with
  | nil => exact afterMark?_mark rest
  | cons c before ih =>
    rw [List.infix_cons_iff, not_or] at h
    rw [← ih h.2]
    exact afterMark?_cons fun hbegins => h.1 (isPrefix_of_isPrefix_append_mark hbegins)

theorem exists_of_afterMark? {cs rest : List Char} (h : afterMark? cs = some rest) :
    ∃ before, cs = before ++ mark ++ rest ∧ ¬mark <:+: before := by
  induction cs with
  | nil => cases h
  | cons c cs ih =>
    by_cases hbegins : mark <+: c :: cs
    · obtain ⟨behind, hcs⟩ := hbegins
      rw [← hcs, afterMark?_mark, Option.some.injEq] at h
      subst h
      exact ⟨[], hcs.symm, by simp [mark]⟩
    · rw [afterMark?_cons hbegins] at h
      obtain ⟨before, rfl, hbefore⟩ := ih h
      refine ⟨c :: before, rfl, fun hinfix => ?_⟩
      rcases List.infix_cons_iff.mp hinfix with hfirst | hlater
      · exact hbegins (hfirst.trans ⟨mark ++ rest, by simp⟩)
      · exact hbefore hlater

theorem afterMark?_eq_some_iff {cs rest : List Char} :
    afterMark? cs = some rest ↔ ∃ before, cs = before ++ mark ++ rest ∧ ¬mark <:+: before := by
  constructor
  · exact exists_of_afterMark?
  · rintro ⟨before, rfl, hbefore⟩
    exact afterMark?_append hbefore

theorem isSome_afterMark?_iff {cs : List Char} : (afterMark? cs).isSome = true ↔ mark <:+: cs := by
  induction cs with
  | nil => simp [afterMark?, mark]
  | cons c cs ih =>
    by_cases hbegins : mark <+: c :: cs
    · obtain ⟨behind, hcs⟩ := id hbegins
      rw [← hcs, afterMark?_mark, hcs]
      simp [hbegins.isInfix]
    · rw [afterMark?_cons hbegins, ih, List.infix_cons_iff]
      simp [hbegins]

/-! ## Numbers -/

/-- A row of decimal digits and the number it stands for. -/
def Plain (cs : List Char) (n : Int) : Prop :=
  cs ≠ [] ∧ (∀ c ∈ cs, c.isDigit = true) ∧
    n = (Nat.ofDigits 10 (cs.map fun c => c.toNat - '0'.toNat).reverse : Nat)

/-- A row of decimal digits with at most one sign in front. -/
inductive Signed : List Char → Int → Prop where
  | plain {cs n} (digits : Plain cs n) : Signed cs n
  | plus {cs n} (digits : Plain cs n) : Signed ('+' :: cs) n
  | minus {cs n} (digits : Plain cs n) : Signed ('-' :: cs) (-n)

theorem digitsValue?_eq_some_iff {cs : List Char} {n : Nat} :
    digitsValue? cs = some n ↔ Plain cs n := by
  have hvalue : cs.foldl (fun n c => 10 * n + (c.toNat - '0'.toNat)) 0 =
      Nat.ofDigits 10 (cs.map fun c => c.toNat - '0'.toNat).reverse := by
    rw [Nat.ofDigits_eq_foldr, List.foldr_reverse, List.foldl_map]
    simp only [Nat.cast_id, Nat.add_comm]
  have hrow : (cs.isEmpty || !cs.all Char.isDigit) = false ↔
      cs ≠ [] ∧ ∀ c ∈ cs, c.isDigit = true := by
    simp [List.isEmpty_eq_false_iff]
  rw [digitsValue?, Plain, hvalue, Nat.cast_inj, ← and_assoc, ← hrow]
  cases cs.isEmpty || !cs.all Char.isDigit <;> simp [eq_comm]

theorem Plain.not_mem {cs : List Char} {n : Int} (h : Plain cs n) {c : Char}
    (hc : c.isDigit = false) : c ∉ cs := by
  intro hmem
  rw [h.2.1 c hmem] at hc
  cases hc

theorem plain_zero_iff {n : Int} : Plain ['0'] n ↔ n = 0 := by
  simp [Plain]

theorem Plain.nonneg {cs : List Char} {n : Int} (h : Plain cs n) : 0 ≤ n := by
  rw [h.2.2]
  exact Int.natCast_nonneg _

theorem signed_plus_iff {cs : List Char} {n : Int} : Signed ('+' :: cs) n ↔ Plain cs n := by
  constructor
  · intro h
    cases h with
    | plain digits => exact absurd List.mem_cons_self (digits.not_mem (by decide))
    | plus digits => exact digits
  · exact .plus

theorem signed_minus_iff {cs : List Char} {n : Int} : Signed ('-' :: cs) n ↔ Plain cs (-n) := by
  constructor
  · intro h
    cases h with
    | plain digits => exact absurd List.mem_cons_self (digits.not_mem (by decide))
    | minus digits => rwa [neg_neg]
  · intro h
    rw [← neg_neg n]
    exact .minus h

theorem Signed.plain_of_not_mem {cs : List Char} {n : Int} (h : Signed cs n) (hplus : '+' ∉ cs)
    (hminus : '-' ∉ cs) : Plain cs n := by
  cases h with
  | plain digits => exact digits
  | plus _ => exact absurd List.mem_cons_self hplus
  | minus _ => exact absurd List.mem_cons_self hminus

theorem Signed.ne_nil {cs : List Char} {n : Int} (h : Signed cs n) : cs ≠ [] := by
  cases h with
  | plain digits => exact digits.1
  | plus _ | minus _ => exact List.cons_ne_nil _ _

theorem Signed.of_mem {cs : List Char} {n : Int} (h : Signed cs n) {c : Char} (hc : c ∈ cs) :
    c.isDigit = true ∨ c = '+' ∨ c = '-' := by
  cases h with
  | plain digits => exact .inl (digits.2.1 c hc)
  | plus digits =>
    rcases List.mem_cons.mp hc with rfl | hc
    · exact .inr (.inl rfl)
    · exact .inl (digits.2.1 c hc)
  | minus digits =>
    rcases List.mem_cons.mp hc with rfl | hc
    · exact .inr (.inr rfl)
    · exact .inl (digits.2.1 c hc)

theorem Signed.colon_not_mem {cs : List Char} {n : Int} (h : Signed cs n) : ':' ∉ cs := by
  intro hc
  rcases h.of_mem hc with hdigit | hplus | hminus
  · exact absurd hdigit (by decide)
  · exact absurd hplus (by decide)
  · exact absurd hminus (by decide)

private theorem bind_fits_iff {value? : Option Int} {n : Int} :
    (value?.bind fun n => if Fits n then some n else none) = some n ↔
      value? = some n ∧ Fits n := by
  simp only [Option.bind_eq_some_iff, Option.ite_none_right_eq_some, Option.some.injEq]
  constructor
  · rintro ⟨value, hvalue, hfits, rfl⟩
    exact ⟨hvalue, hfits⟩
  · rintro ⟨hvalue, hfits⟩
    exact ⟨n, hvalue, hfits, rfl⟩

private theorem map_digitsValue?_iff {cs : List Char} {n : Int} :
    (digitsValue? cs).map Int.ofNat = some n ↔ Plain cs n := by
  rw [Option.map_eq_some_iff]
  constructor
  · rintro ⟨value, hvalue, rfl⟩
    exact digitsValue?_eq_some_iff.mp hvalue
  · intro h
    obtain ⟨value, rfl⟩ := Int.eq_ofNat_of_zero_le h.nonneg
    exact ⟨value, digitsValue?_eq_some_iff.mpr h, rfl⟩

theorem integer?_eq_some_iff {cs : List Char} {n : Int} :
    integer? cs = some n ↔ Signed cs n ∧ Fits n := by
  unfold integer?
  rw [bind_fits_iff]
  refine and_congr_left fun _ => ?_
  split
  · rw [map_digitsValue?_iff, signed_plus_iff]
  · next digits =>
    rw [signed_minus_iff, ← map_digitsValue?_iff]
    cases digitsValue? digits <;> simp [neg_eq_iff_eq_neg]
  · next hplus hminus =>
    rw [map_digitsValue?_iff]
    constructor
    · exact .plain
    · intro h
      cases h with
      | plain digits => exact digits
      | plus _ => exact absurd rfl (hplus _)
      | minus _ => exact absurd rfl (hminus _)

/-! ## Hours and minutes -/

/-- Hours and minutes whose numbers are written in some way: hours in one or two characters,
minutes in the last two of more, or both with a colon between them. -/
inductive Clock (number : List Char → Int → Prop) : List Char → Int → Int → Prop where
  | hours {cs hours} (short : cs.length ≤ 2) (given : number cs hours) : Clock number cs hours 0
  | joined {front back hours minutes} (two : back.length = 2) (given : number front hours)
      (behind : number back minutes) : Clock number (front ++ back) hours minutes
  | parted {front back hours minutes} (given : number front hours)
      (behind : number back minutes) : Clock number (front ++ ':' :: back) hours minutes

theorem cut_colon {front : List Char} (h : ':' ∉ front) (back : List Char) :
    cut (front ++ ':' :: back) = (front, back) := by
  have hfront : ∀ c ∈ front, (c != ':') = true := by
    intro c hc
    rw [bne_iff_ne]
    rintro rfl
    exact h hc
  rw [cut, if_pos (by simp), List.takeWhile_append_of_pos hfront,
    List.dropWhile_append_of_pos hfront]
  simp

theorem cut_joined {front back : List Char} (hne : front ≠ []) (htwo : back.length = 2)
    (hfront : ':' ∉ front) (hback : ':' ∉ back) : cut (front ++ back) = (front, back) := by
  have hlength : 0 < front.length := List.length_pos_iff.mpr hne
  rw [cut, if_neg (by simp [hfront, hback]), if_pos (by rw [List.length_append]; omega)]
  simp [htwo]

theorem cut_short {cs : List Char} (hshort : cs.length ≤ 2) (h : ':' ∉ cs) : cut cs = (cs, ['0']) := by
  rw [cut, if_neg (by simpa using h), if_neg (by omega)]

theorem clock_signed_iff {cs : List Char} {hours minutes : Int} :
    Clock Signed cs hours minutes ↔ Signed (cut cs).1 hours ∧ Signed (cut cs).2 minutes := by
  constructor
  · intro h
    cases h with
    | hours short given =>
      rw [cut_short short given.colon_not_mem]
      exact ⟨given, .plain (plain_zero_iff.mpr rfl)⟩
    | joined two given behind =>
      rw [cut_joined given.ne_nil two given.colon_not_mem behind.colon_not_mem]
      exact ⟨given, behind⟩
    | parted given behind =>
      rw [cut_colon given.colon_not_mem]
      exact ⟨given, behind⟩
  · rintro ⟨hhours, hminutes⟩
    by_cases hcolon : ':' ∈ cs
    · obtain ⟨front, back, rfl, hfront⟩ := List.eq_append_cons_of_mem hcolon
      rw [cut_colon hfront] at hhours hminutes
      exact .parted hhours hminutes
    · rw [cut, if_neg (by simpa using hcolon)] at hhours hminutes
      split at hhours
      · next hlong =>
        rw [if_pos hlong] at hminutes
        have hclock : Clock Signed (cs.take (cs.length - 2) ++ cs.drop (cs.length - 2)) hours
            minutes :=
          .joined (by rw [List.length_drop]; omega) hhours hminutes
        rwa [List.take_append_drop] at hclock
      · next hshort =>
        rw [if_neg hshort] at hminutes
        have hzero : minutes = 0 :=
          plain_zero_iff.mp (hminutes.plain_of_not_mem (by simp) (by simp))
        rw [hzero]
        exact .hours (by omega) hhours

theorem Clock.mono {number other : List Char → Int → Prop} (h : ∀ cs n, number cs n → other cs n)
    {cs : List Char} {hours minutes : Int} (hclock : Clock number cs hours minutes) :
    Clock other cs hours minutes := by
  cases hclock with
  | hours short given => exact .hours short (h _ _ given)
  | joined two given behind => exact .joined two (h _ _ given) (h _ _ behind)
  | parted given behind => exact .parted (h _ _ given) (h _ _ behind)

theorem Clock.plain {cs : List Char} {hours minutes : Int} (h : Clock Signed cs hours minutes)
    (hplus : '+' ∉ cs) (hminus : '-' ∉ cs) : Clock Plain cs hours minutes := by
  cases h with
  | hours short given => exact .hours short (given.plain_of_not_mem hplus hminus)
  | joined two given behind =>
    rw [List.mem_append, not_or] at hplus hminus
    exact .joined two (given.plain_of_not_mem hplus.1 hminus.1)
      (behind.plain_of_not_mem hplus.2 hminus.2)
  | parted given behind =>
    rw [List.mem_append, List.mem_cons, not_or, not_or] at hplus hminus
    exact .parted (given.plain_of_not_mem hplus.1 hminus.1)
      (behind.plain_of_not_mem hplus.2.2 hminus.2.2)

theorem Clock.nonneg {cs : List Char} {hours minutes : Int} (h : Clock Plain cs hours minutes) :
    0 ≤ hours ∧ 0 ≤ minutes := by
  cases h with
  | hours short given => exact ⟨given.nonneg, le_rfl⟩
  | joined two given behind => exact ⟨given.nonneg, behind.nonneg⟩
  | parted given behind => exact ⟨given.nonneg, behind.nonneg⟩

/-! ## Readings -/

/-- A text that begins with a sign and has hours and minutes behind it. -/
inductive Shown (number : List Char → Int → Prop) : List Char → Reading → Prop where
  | east {cs hours minutes} (clock : Clock number cs hours minutes) :
      Shown number ('+' :: cs) ⟨false, hours, minutes⟩
  | west {cs hours minutes} (clock : Clock number cs hours minutes) :
      Shown number ('-' :: cs) ⟨true, hours, minutes⟩

/-- The numbers of a reading have 32 bits and are bounded from above as on a clock. -/
structure Reading.InRange (reading : Reading) : Prop where
  hours : Fits reading.hours
  minutes : Fits reading.minutes
  hours_le : reading.hours ≤ 23
  minutes_le : reading.minutes ≤ 59

theorem clock?_eq_some_iff {west : Bool} {cs : List Char} {reading : Reading} :
    clock? west cs = some reading ↔
      Clock Signed cs reading.hours reading.minutes ∧ reading.west = west ∧ reading.InRange := by
  rw [clock_signed_iff]
  simp only [clock?, Option.bind_eq_bind, Option.bind_eq_some_iff, integer?_eq_some_iff,
    Option.ite_none_left_eq_some, not_or, Int.not_lt, Option.some.injEq]
  constructor
  · rintro ⟨hours, ⟨hhours, hfits⟩, minutes, ⟨hminutes, hfits'⟩, ⟨hle, hle'⟩, rfl⟩
    exact ⟨⟨hhours, hminutes⟩, rfl, hfits, hfits', hle, hle'⟩
  · rintro ⟨⟨hhours, hminutes⟩, rfl, hrange⟩
    exact ⟨_, ⟨hhours, hrange.hours⟩, _, ⟨hminutes, hrange.minutes⟩,
      ⟨hrange.hours_le, hrange.minutes_le⟩, rfl⟩

theorem Clock.of_mem {cs : List Char} {hours minutes : Int} (h : Clock Signed cs hours minutes)
    {c : Char} (hc : c ∈ cs) : c.isDigit = true ∨ c = '+' ∨ c = '-' ∨ c = ':' := by
  have hnumber {part : List Char} {n : Int} (hpart : Signed part n) (hmem : c ∈ part) :
      c.isDigit = true ∨ c = '+' ∨ c = '-' ∨ c = ':' :=
    (hpart.of_mem hmem).imp_right fun hsign => hsign.imp_right .inl
  cases h with
  | hours short given => exact hnumber given hc
  | joined two given behind =>
    rcases List.mem_append.mp hc with hc | hc
    · exact hnumber given hc
    · exact hnumber behind hc
  | parted given behind =>
    rcases List.mem_append.mp hc with hc | hc
    · exact hnumber given hc
    · rcases List.mem_cons.mp hc with rfl | hc
      · exact .inr (.inr (.inr rfl))
      · exact hnumber behind hc

theorem Shown.lt_of_mem {cs : List Char} {reading : Reading} (h : Shown Signed cs reading)
    {c : Char} (hc : c ∈ cs) : c.toNat < 128 := by
  have hclock : c.isDigit = true ∨ c = '+' ∨ c = '-' ∨ c = ':' := by
    cases h with
    | east clock =>
      rcases List.mem_cons.mp hc with rfl | hc
      · exact .inr (.inl rfl)
      · exact clock.of_mem hc
    | west clock =>
      rcases List.mem_cons.mp hc with rfl | hc
      · exact .inr (.inr (.inl rfl))
      · exact clock.of_mem hc
  rcases hclock with hdigit | rfl | rfl | rfl
  · have hle : c.toNat ≤ 57 := by
      simp only [Char.isDigit, Bool.and_eq_true, decide_eq_true_eq] at hdigit
      exact UInt32.le_iff_toNat_le.mp hdigit.2
    omega
  all_goals decide

theorem Shown.mono {number other : List Char → Int → Prop} (h : ∀ cs n, number cs n → other cs n)
    {cs : List Char} {reading : Reading} (hshown : Shown number cs reading) :
    Shown other cs reading := by
  cases hshown with
  | east clock => exact .east (clock.mono h)
  | west clock => exact .west (clock.mono h)

theorem Shown.plain {cs : List Char} {reading : Reading} (h : Shown Signed cs reading)
    (hsigns : ∀ c ∈ cs.tail, c ≠ '+' ∧ c ≠ '-') : Shown Plain cs reading := by
  cases h with
  | east clock =>
    exact .east (clock.plain (fun h => (hsigns _ h).1 rfl) fun h => (hsigns _ h).2 rfl)
  | west clock =>
    exact .west (clock.plain (fun h => (hsigns _ h).1 rfl) fun h => (hsigns _ h).2 rfl)

theorem Shown.nonneg {cs : List Char} {reading : Reading} (h : Shown Plain cs reading) :
    0 ≤ reading.hours ∧ 0 ≤ reading.minutes := by
  cases h with
  | east clock | west clock => exact clock.nonneg

theorem shown_cons_iff {number : List Char → Int → Prop} {sign : Char} {cs : List Char}
    {reading : Reading} : Shown number (sign :: cs) reading ↔
      sign = (if reading.west then '-' else '+') ∧ Clock number cs reading.hours reading.minutes := by
  constructor
  · intro h
    cases h with
    | east clock => exact ⟨rfl, clock⟩
    | west clock => exact ⟨rfl, clock⟩
  · rintro ⟨rfl, hclock⟩
    obtain ⟨west, hours, minutes⟩ := reading
    cases west with
    | false => exact .east hclock
    | true => exact .west hclock

/-- The reader finds a reading exactly where the text shows one that is in range. -/
theorem reading?_eq_some_iff {text : List Char} {reading : Reading} :
    reading? text = some reading ↔ Shown Signed (trimBlanks text) reading ∧ reading.InRange := by
  rw [reading?]
  generalize trimBlanks text = shown
  cases shown with
  | nil => exact ⟨fun h => (nomatch h), fun h => (nomatch h.1)⟩
  | cons sign cs =>
    by_cases hascii : ∃ c ∈ sign :: cs, 128 ≤ c.toNat
    · obtain ⟨c, hc, hlarge⟩ := hascii
      have hany : (sign :: cs).any (fun c => 128 ≤ c.toNat) = true :=
        List.any_eq_true.mpr ⟨c, hc, decide_eq_true hlarge⟩
      simp only [hany, if_true, reduceCtorEq, false_iff]
      exact fun h => absurd (h.1.lt_of_mem hc) (Nat.not_lt.mpr hlarge)
    · have hany : (sign :: cs).any (fun c => 128 ≤ c.toNat) = false := by
        simpa [List.any_eq_false] using hascii
      simp only [hany, Bool.false_eq_true, if_false]
      rw [shown_cons_iff]
      by_cases heast : sign = '+'
      · rw [if_pos heast, clock?_eq_some_iff]
        cases hwest : reading.west <;> simp [heast]
      · rw [if_neg heast]
        by_cases hminus : sign = '-'
        · rw [if_pos hminus, clock?_eq_some_iff]
          cases hwest : reading.west <;> simp [hminus]
        · rw [if_neg hminus]
          cases hwest : reading.west <;> simp [heast, hminus]

end Conform.Greenwich
