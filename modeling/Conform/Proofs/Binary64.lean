import Mathlib.Algebra.Order.Field.Power
import Mathlib.Data.Rat.Cast.Order
import Mathlib.Tactic.Linarith
import Mathlib.Tactic.Ring
import Conform.Binary64
/-!
# Nearest floating point numbers

A finite pattern stands for a significand scaled by a power of two. Between
two powers of two all such numbers are multiples of one step, so rounding a
whole number to that step gives the nearest of them.
-/

namespace Conform.Binary64

def value (x : Binary64) : ℚ :=
  (if x.isNegative then -1 else 1) * (x.significand * 2 ^ x.exponent)

/-- No finite number is nearer, and one that is as near leaves this one with an even pattern. -/
structure NearestTo (x : Binary64) (q : ℚ) : Prop where
  isFinite : x.isFinite = true
  le {y : Binary64} (finite : y.isFinite = true) : |x.value - q| ≤ |y.value - q|
  even {y : Binary64} (finite : y.isFinite = true) (other : y.value ≠ x.value)
    (tie : |y.value - q| = |x.value - q|) : x.bits.toNat % 2 = 0

/-! ## Multiples -/

theorem significand_lt (x : Binary64) : x.significand < 2 ^ 53 := by
  have hlt : x.fraction < 0x10000000000000 := Nat.mod_lt _ (by decide)
  rw [significand]
  split <;> omega

theorem abs_value (x : Binary64) : |x.value| = x.significand * 2 ^ x.exponent := by
  have hnonneg : (0 : ℚ) ≤ x.significand * 2 ^ x.exponent := by positivity
  rw [value, abs_mul, abs_of_nonneg hnonneg]
  cases x.isNegative <;> simp

theorem exists_value_eq {x : Binary64} {k : ℤ} (h : (2 : ℚ) ^ (52 + k) ≤ |x.value|) :
    ∃ m : ℤ, x.value = m * 2 ^ k := by
  have hexponent : k ≤ x.exponent := by
    by_contra hlt
    have hstep : (2 : ℚ) ^ x.exponent ≤ 2 ^ (k - 1) :=
      zpow_le_zpow_right₀ (by norm_num) (by omega)
    have hsmall : (x.significand : ℚ) < 2 ^ 53 := by exact_mod_cast x.significand_lt
    have hlimit : |x.value| < 2 ^ 53 * 2 ^ (k - 1) := by
      rw [abs_value]
      calc (x.significand : ℚ) * 2 ^ x.exponent
          ≤ x.significand * 2 ^ (k - 1) := by gcongr
        _ < 2 ^ 53 * 2 ^ (k - 1) := by gcongr
    have hsame : (2 : ℚ) ^ 53 * 2 ^ (k - 1) = 2 ^ (52 + k) := by
      rw [← zpow_natCast, ← zpow_add₀ (by norm_num)]
      congr 1
      push_cast
      ring
    rw [hsame] at hlimit
    exact absurd hlimit (not_lt.mpr h)
  obtain ⟨shift, hshift⟩ := Int.le.dest hexponent
  refine ⟨(if x.isNegative then -1 else 1) * (x.significand * 2 ^ shift), ?_⟩
  rw [value, ← hshift, zpow_add₀ (by norm_num), zpow_natCast]
  push_cast
  ring

/-! ## Whole quotients -/

theorem nearest_mem_floor (numerator denominator : Nat) :
    numerator / denominator ≤ nearest numerator denominator ∧
      nearest numerator denominator ≤ numerator / denominator + 1 := by
  rw [nearest]
  split <;> omega

theorem nearest_bounds (numerator : Nat) {denominator : Nat} (h : 0 < denominator) :
    2 * (nearest numerator denominator * denominator) ≤ 2 * numerator + denominator ∧
    2 * numerator ≤ 2 * (nearest numerator denominator * denominator) + denominator := by
  have hdiv := Nat.div_add_mod numerator denominator
  have hmod := Nat.mod_lt numerator h
  rw [Nat.mul_comm] at hdiv
  rw [nearest]
  split
  · rw [Nat.add_one_mul (numerator / denominator)]
    omega
  · omega

theorem even_nearest_of_tie {numerator denominator : Nat} (h : 0 < denominator)
    (htie : 2 * (nearest numerator denominator * denominator) = 2 * numerator + denominator ∨
      2 * numerator = 2 * (nearest numerator denominator * denominator) + denominator) :
    nearest numerator denominator % 2 = 0 := by
  have hdiv := Nat.div_add_mod numerator denominator
  have hmod := Nat.mod_lt numerator h
  rw [Nat.mul_comm] at hdiv
  rw [nearest] at htie ⊢
  split
  · next hup =>
    rw [if_pos hup, Nat.add_one_mul (numerator / denominator)] at htie
    omega
  · next hdown =>
    rw [if_neg hdown] at htie
    omega

theorem two_mul_abs_nearest_sub_le (numerator : Nat) {denominator : Nat} (h : 0 < denominator) :
    2 * |(nearest numerator denominator : ℚ) * denominator - numerator| ≤ denominator := by
  obtain ⟨hlow, hhigh⟩ := nearest_bounds numerator h
  have hlow' : (2 : ℚ) * (nearest numerator denominator * denominator) ≤
      2 * numerator + denominator := by exact_mod_cast hlow
  have hhigh' : (2 : ℚ) * numerator ≤
      2 * (nearest numerator denominator * denominator) + denominator := by exact_mod_cast hhigh
  have habs : |(nearest numerator denominator : ℚ) * denominator - numerator| ≤
      denominator / 2 := abs_le.mpr ⟨by linarith, by linarith⟩
  linarith

theorem even_nearest_of_two_mul_abs {numerator denominator : Nat} (h : 0 < denominator)
    (htie : 2 * |(nearest numerator denominator : ℚ) * denominator - numerator| = denominator) :
    nearest numerator denominator % 2 = 0 := by
  apply even_nearest_of_tie h
  rcases abs_cases ((nearest numerator denominator : ℚ) * denominator - numerator) with
    ⟨habs, _⟩ | ⟨habs, _⟩
  · left
    have heq : (2 : ℚ) * (nearest numerator denominator * denominator) =
      2 * numerator + denominator := by linarith
    exact_mod_cast heq
  · right
    have heq : (2 : ℚ) * numerator =
      2 * (nearest numerator denominator * denominator) + denominator := by linarith
    exact_mod_cast heq

theorem le_abs_sub_add_abs_sub {step q : ℚ} (hstep : 0 < step) {m n : ℤ} (hne : m ≠ n) :
    step ≤ |m * step - q| + |n * step - q| := by
  have hapart : (1 : ℚ) ≤ |(m : ℚ) - n| := by
    have hpos : 1 ≤ |m - n| := Int.one_le_abs (sub_ne_zero.mpr hne)
    exact_mod_cast hpos
  calc step ≤ |(m : ℚ) - n| * step := le_mul_of_one_le_left hstep.le hapart
    _ = |m * step - n * step| := by rw [← sub_mul, abs_mul, abs_of_pos hstep]
    _ ≤ |m * step - q| + |q - n * step| := abs_sub_le _ _ _
    _ = |m * step - q| + |n * step - q| := by rw [abs_sub_comm q]

/-! ## Whole numbers -/

theorem bits_pack {magnitude : Nat} (h : magnitude < 0x7ff0000000000000) :
    (pack false magnitude).bits.toNat = magnitude := by
  simp only [pack, UInt64.toNat_ofNat']
  simp
  omega

/-- The pattern of a significand at a power of two; a carry goes over into the exponent. -/
theorem value_pack {field scaled : Nat} (hfield : field ≤ 2044)
    (hlow : 2 ^ 52 ≤ scaled) (hhigh : scaled ≤ 2 ^ 53) :
    (pack false (field * 0x10000000000000 + scaled)).isFinite = true ∧
    (pack false (field * 0x10000000000000 + scaled)).value =
      scaled * 2 ^ ((field : ℤ) - 1074) := by
  have hbits : (pack false (field * 0x10000000000000 + scaled)).bits.toNat =
      field * 0x10000000000000 + scaled := bits_pack (by omega)
  generalize pack false (field * 0x10000000000000 + scaled) = x at hbits
  have hnegative : x.isNegative = false := by
    rw [isNegative, hbits, decide_eq_false_iff_not]
    omega
  rw [isFinite, decide_eq_true_iff, value, hnegative, if_neg Bool.false_ne_true, one_mul]
  by_cases hcarry : scaled = 2 ^ 53
  · have hexponent : x.exponentField = field + 2 := by
      rw [exponentField, hbits]
      omega
    have hsignificand : x.significand = 2 ^ 52 := by
      have hfraction : x.fraction = 0 := by
        rw [fraction, hbits]
        omega
      rw [significand, hexponent, if_neg (Nat.succ_ne_zero _), hfraction]
      rfl
    have hscale : x.exponent = 1 + ((field : ℤ) - 1074) := by
      rw [exponent, hexponent]
      omega
    refine ⟨by omega, ?_⟩
    rw [hsignificand, hscale, hcarry, zpow_add₀ (by norm_num)]
    push_cast
    ring
  · have hexponent : x.exponentField = field + 1 := by
      rw [exponentField, hbits]
      omega
    have hsignificand : x.significand = scaled := by
      have hfraction : 0x10000000000000 + x.fraction = scaled := by
        rw [fraction, hbits]
        omega
      rw [significand, hexponent, if_neg (Nat.succ_ne_zero _), hfraction]
    have hscale : x.exponent = (field : ℤ) - 1074 := by
      rw [exponent, hexponent]
      omega
    refine ⟨by omega, ?_⟩
    rw [hsignificand, hscale]

theorem ofInt_eq {n k : Nat} (hlow : 2 ^ (52 + k) ≤ n) (hhigh : n < 2 ^ (53 + k)) :
    ofInt n = pack false ((k + 1074) * 0x10000000000000 + nearest n (2 ^ k)) := by
  have hpos : 0 < n := Nat.lt_of_lt_of_le (Nat.two_pow_pos _) hlow
  have hlog : n.log2 = 52 + k := by
    rw [Nat.log2_eq_iff hpos.ne']
    exact ⟨hlow, by rwa [show 52 + k + 1 = 53 + k by omega]⟩
  have hleading : leadingExponent n 1 = 52 + k := by
    have hfirst : (n.log2 : Int) - (Nat.log2 1 : Nat) = (52 + k : Nat) := by
      rw [hlog, show Nat.log2 1 = 0 by decide, Nat.cast_zero, sub_zero]
    have hbelow : 1 <<< (52 + k) ≤ n <<< (-((52 + k : Nat) : Int)).toNat := by
      rw [Int.toNat_neg_natCast, Nat.shiftLeft_zero, Nat.one_shiftLeft]
      exact hlow
    rw [leadingExponent]
    simp only [hfirst, Int.toNat_natCast]
    rw [if_pos hbelow, Nat.cast_add]
    rfl
  have hscale : max (leadingExponent n 1 - 52) (-1074) = (k : Int) := by
    rw [hleading]
    omega
  rw [ofInt, ofRatio, if_neg (by simpa using hpos.ne'), Int.natAbs_natCast]
  simp only [hscale, Int.toNat_natCast, Int.toNat_neg_natCast, Nat.shiftLeft_zero,
    Nat.one_shiftLeft]
  congr 2

theorem nearest_mem {n k : Nat} (hlow : 2 ^ (52 + k) ≤ n) (hhigh : n < 2 ^ (53 + k)) :
    2 ^ 52 ≤ nearest n (2 ^ k) ∧ nearest n (2 ^ k) ≤ 2 ^ 53 := by
  obtain ⟨hle, hge⟩ := nearest_mem_floor n (2 ^ k)
  have hmin : 2 ^ 52 ≤ n / 2 ^ k := by
    rw [Nat.le_div_iff_mul_le (Nat.two_pow_pos k), ← Nat.pow_add]
    exact hlow
  have hmax : n / 2 ^ k < 2 ^ 53 := by
    rw [Nat.div_lt_iff_lt_mul (Nat.two_pow_pos k), ← Nat.pow_add]
    exact hhigh
  exact ⟨hmin.trans hle, hge.trans hmax⟩

theorem eq_mul_or_lt (y : Binary64) (k : Nat) :
    (∃ m : ℤ, y.value = m * 2 ^ k) ∨ y.value < 2 ^ (52 + k) := by
  by_cases hlarge : (2 : ℚ) ^ (52 + k) ≤ y.value
  · left
    have habs : (2 : ℚ) ^ (52 + (k : ℤ)) ≤ |y.value| := by
      apply le_trans _ (le_abs_self _)
      exact_mod_cast hlarge
    obtain ⟨m, hm⟩ := exists_value_eq habs
    exact ⟨m, by rw [hm, zpow_natCast]⟩
  · exact .inr (not_le.mp hlarge)

section Whole

variable {n k : Nat}

theorem value_ofInt (hlow : 2 ^ (52 + k) ≤ n) (hhigh : n < 2 ^ (53 + k)) (hk : k ≤ 970) :
    (ofInt n).isFinite = true ∧ (ofInt n).value = (nearest n (2 ^ k) : ℤ) * 2 ^ k := by
  obtain ⟨hmin, hmax⟩ := nearest_mem hlow hhigh
  have hfield : k + 1074 ≤ 2044 := by omega
  obtain ⟨hfinite, hvalue⟩ := value_pack hfield hmin hmax
  rw [← ofInt_eq hlow hhigh] at hfinite hvalue
  refine ⟨hfinite, ?_⟩
  rw [hvalue, Nat.cast_add, Int.cast_natCast]
  simp

theorem two_mul_abs_value_ofInt_sub_le (hlow : 2 ^ (52 + k) ≤ n) (hhigh : n < 2 ^ (53 + k))
    (hk : k ≤ 970) : 2 * |(ofInt n).value - n| ≤ 2 ^ k := by
  have hle := two_mul_abs_nearest_sub_le n (Nat.two_pow_pos k)
  rw [(value_ofInt hlow hhigh hk).2]
  exact_mod_cast hle

theorem le_abs_mul_sub_add (hlow : 2 ^ (52 + k) ≤ n) (hhigh : n < 2 ^ (53 + k)) (hk : k ≤ 970)
    {m : ℤ} (hne : (m * 2 ^ k : ℚ) ≠ (ofInt n).value) :
    2 ^ k ≤ |(m * 2 ^ k : ℚ) - n| + |(ofInt n).value - n| := by
  rw [(value_ofInt hlow hhigh hk).2] at hne ⊢
  apply le_abs_sub_add_abs_sub (by positivity)
  rintro rfl
  exact hne rfl

theorem abs_value_ofInt_sub_le (hlow : 2 ^ (52 + k) ≤ n) (hhigh : n < 2 ^ (53 + k))
    (hk : k ≤ 970) : |(ofInt n).value - n| ≤ n - 2 ^ (52 + k) := by
  have hle : (2 : ℚ) ^ (52 + k) ≤ n := by exact_mod_cast hlow
  have habs : |(2 : ℚ) ^ (52 + k) - n| = n - 2 ^ (52 + k) := by
    rw [abs_sub_comm, abs_of_nonneg (sub_nonneg.mpr hle)]
  have hpower : ((2 ^ 52 : ℤ) : ℚ) * 2 ^ k = 2 ^ (52 + k) := by
    rw [pow_add]
    norm_num
  by_cases heq : ((2 ^ 52 : ℤ) : ℚ) * 2 ^ k = (ofInt n).value
  · rw [← heq, hpower, habs]
  · have hsum := le_abs_mul_sub_add hlow hhigh hk heq
    have hhalf := two_mul_abs_value_ofInt_sub_le hlow hhigh hk
    rw [hpower, habs] at hsum
    linarith

theorem le_abs_sub_add_or_lt (hlow : 2 ^ (52 + k) ≤ n) (hhigh : n < 2 ^ (53 + k)) (hk : k ≤ 970)
    {y : Binary64} (hne : y.value ≠ (ofInt n).value) :
    2 ^ k ≤ |y.value - n| + |(ofInt n).value - n| ∨ |(ofInt n).value - n| < |y.value - n| := by
  rcases eq_mul_or_lt y k with ⟨m, hm⟩ | hlt
  · rw [hm] at hne ⊢
    exact .inl (le_abs_mul_sub_add hlow hhigh hk hne)
  · right
    calc |(ofInt n).value - n| ≤ n - 2 ^ (52 + k) := abs_value_ofInt_sub_le hlow hhigh hk
      _ < n - y.value := sub_lt_sub_left hlt _
      _ ≤ |n - y.value| := le_abs_self _
      _ = |y.value - n| := abs_sub_comm _ _

/-- Whole numbers that need rounding become the nearest number. -/
theorem nearestTo_ofInt (hlow : 2 ^ (52 + k) ≤ n) (hhigh : n < 2 ^ (53 + k)) (hk : k ≤ 970) :
    (ofInt n).NearestTo n := by
  obtain ⟨hfinite, hvalue⟩ := value_ofInt hlow hhigh hk
  have hhalf := two_mul_abs_value_ofInt_sub_le hlow hhigh hk
  refine ⟨hfinite, ?_, ?_⟩
  · intro y _
    by_cases heq : y.value = (ofInt n).value
    · rw [heq]
    · rcases le_abs_sub_add_or_lt hlow hhigh hk heq with hsum | hlt
      · linarith
      · exact hlt.le
  · intro y _ hne htie
    rcases le_abs_sub_add_or_lt hlow hhigh hk hne with hsum | hlt
    · have hwhole : 2 * |(ofInt n).value - n| = 2 ^ k := by linarith
      have heven : nearest n (2 ^ k) % 2 = 0 := by
        apply even_nearest_of_two_mul_abs (Nat.two_pow_pos k)
        rw [hvalue] at hwhole
        exact_mod_cast hwhole
      have hmax := (nearest_mem hlow hhigh).2
      rw [ofInt_eq hlow hhigh, bits_pack (by omega)]
      omega
    · exact absurd htie hlt.ne'

end Whole

theorem nearestTo_ofInt_of_maxValue_lt {n : Int} (hlow : Int64.maxValue.toInt < n)
    (hhigh : n < 2 ^ 64) : (ofInt n).NearestTo n := by
  have hmax : Int64.maxValue.toInt = 2 ^ 63 - 1 := rfl
  obtain ⟨whole, rfl⟩ := Int.eq_ofNat_of_zero_le (show 0 ≤ n by omega)
  have hrange : 2 ^ (52 + 11) ≤ whole ∧ whole < 2 ^ (53 + 11) := by omega
  rw [Int.cast_natCast]
  exact nearestTo_ofInt hrange.1 hrange.2 (by decide)

end Conform.Binary64
