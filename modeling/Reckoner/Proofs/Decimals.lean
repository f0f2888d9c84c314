import Reckoner.Number.Decimal
import Reckoner.Proofs.Rounding
import Mathlib.Tactic.Linarith
import Mathlib.Tactic.NormNum
import Mathlib.Tactic.Positivity
import Mathlib.Tactic.Ring

/-! Decimals as rational numbers. The decimal with a number of significant digits
that is nearest to a rational number is off by half of its last digit at most.
Reading a decimal sees the number that it stands for and not how it is written, so
zeros at its end may be left out. -/
namespace Reckoner.Decimal

attribute [local instance] naturalPower

/-- The number that a decimal stands for. -/
def value (d : Decimal) : ℚ := d.significand * 10 ^ d.exponent

theorem ten_zpow_pos (e : ℤ) : (0 : ℚ) < 10 ^ e := zpow_pos (by norm_num) e

/-- The number of digits of a positive number says between which powers of ten it
lies. -/
theorem digitCount_bounds {n : Nat} (h : 0 < n) :
    0 < digitCount n ∧ 10 ^ (digitCount n - 1) ≤ n ∧ n < 10 ^ digitCount n := by
  have hCount : 0 < digitCount n := Nat.length_toDigits_pos
  refine ⟨hCount, ?_, (Nat.length_toDigits_le_iff (by norm_num) hCount).mp (Nat.le_refl _)⟩
  rcases Nat.eq_zero_or_pos (digitCount n - 1) with hOne | hMore
  · rw [hOne, Nat.pow_zero]
    exact h
  · by_contra hLess
    have hShort := (Nat.length_toDigits_le_iff (by norm_num) hMore).mpr (Nat.lt_of_not_le hLess)
    have hSame : digitCount n ≤ digitCount n - 1 := hShort
    omega

theorem digitCount_eq {n k : Nat} (hk : 0 < k) (hLow : 10 ^ (k - 1) ≤ n) (hHigh : n < 10 ^ k) :
    digitCount n = k := by
  obtain ⟨hCount, hAbove, hBelow⟩ :=
    digitCount_bounds (Nat.lt_of_lt_of_le (Nat.pow_pos (by norm_num)) hLow)
  have hUpper : digitCount n - 1 < k :=
    (Nat.pow_lt_pow_iff_right (by norm_num)).mp (Nat.lt_of_le_of_lt hAbove hHigh)
  have hLower : k - 1 < digitCount n :=
    (Nat.pow_lt_pow_iff_right (by norm_num)).mp (Nat.lt_of_le_of_lt hLow hBelow)
  omega

section Nearest

variable {num den : Nat} (hn : 0 < num) (hd : 0 < den)

include hn hd

/-- The leading exponent says between which powers of ten a positive rational
number lies. -/
theorem leadingExponent_bounds :
    (10 : ℚ) ^ leadingExponent num den ≤ num / den ∧
      (num : ℚ) / den < 10 ^ (leadingExponent num den + 1) := by
  have hDen : (0 : ℚ) < den := by exact_mod_cast hd
  unfold leadingExponent
  split
  · next hLarge =>
      obtain ⟨hCount, hLow, hHigh⟩ := digitCount_bounds (Nat.div_pos hLarge hd)
      obtain ⟨k, hk⟩ := Nat.exists_eq_add_one.mpr hCount
      rw [hk, Nat.add_sub_cancel, Nat.le_div_iff_mul_le hd] at hLow
      rw [hk, Nat.div_lt_iff_lt_mul hd] at hHigh
      rw [hk, le_div_iff₀ hDen, div_lt_iff₀ hDen]
      push_cast
      rw [add_sub_cancel_right, zpow_natCast, ← Nat.cast_add_one, zpow_natCast]
      exact ⟨by exact_mod_cast hLow, by exact_mod_cast hHigh⟩
  · next hSmall =>
      obtain ⟨hCount, hLow, hHigh⟩ := digitCount_bounds
        (Nat.div_pos (show num ≤ den - 1 by omega) hn)
      obtain ⟨k, hk⟩ := Nat.exists_eq_add_one.mpr hCount
      rw [hk, Nat.add_sub_cancel, Nat.le_div_iff_mul_le hn] at hLow
      rw [hk, Nat.div_lt_iff_lt_mul hn] at hHigh
      have hUpper : 10 ^ k * num < den := by omega
      have hLower : den ≤ 10 ^ (k + 1) * num := by omega
      have hExponent : -((k + 1 : ℕ) : ℤ) + 1 = -(k : ℤ) := by push_cast; ring
      rw [hk, hExponent, zpow_neg, zpow_neg, zpow_natCast, zpow_natCast, le_div_iff₀ hDen,
        div_lt_iff₀ hDen, inv_mul_le_iff₀ (by positivity), lt_inv_mul_iff₀ (by positivity)]
      exact ⟨by exact_mod_cast hLower, by exact_mod_cast hUpper⟩

end Nearest

/-- A quotient of natural numbers times a power of ten. -/
theorem scaleDown_eq (num : Nat) {den : Nat} (hd : 0 < den) (e : ℤ) :
    0 < (scaleDown num den e).2 ∧
      ((scaleDown num den e).1 : ℚ) / (scaleDown num den e).2 = num / den / 10 ^ e := by
  unfold scaleDown
  split
  · next hExponent =>
      obtain ⟨k, rfl⟩ := Int.eq_ofNat_of_zero_le hExponent
      refine ⟨Nat.mul_pos hd (Nat.pow_pos (by norm_num)), ?_⟩
      rw [Int.toNat_natCast, zpow_natCast, div_div]
      push_cast
      rfl
  · next hExponent =>
      obtain ⟨k, hk⟩ := Int.eq_ofNat_of_zero_le (show 0 ≤ -e by omega)
      obtain rfl : e = -(k : ℤ) := by omega
      refine ⟨hd, ?_⟩
      rw [neg_neg, Int.toNat_natCast, zpow_neg, zpow_natCast, div_inv_eq_mul]
      push_cast
      ring

section Significand

variable (num digits : Nat) {den : Nat} (hd : 0 < den)

/-- The decimal with this many digits has its last digit at this exponent. -/
theorem nearest_eq (digits num den : Nat) : nearest digits num den =
    ⟨roundDiv (scaleDown num den (leadingExponent num den + 1 - digits)).1
      (scaleDown num den (leadingExponent num den + 1 - digits)).2,
      leadingExponent num den + 1 - digits⟩ := rfl

include hd

theorem abs_significand_sub_le :
    |((nearest digits num den).significand : ℚ) -
      num / den / 10 ^ (leadingExponent num den + 1 - digits)| ≤ 1 / 2 := by
  obtain ⟨hPositive, hScaled⟩ := scaleDown_eq num hd (leadingExponent num den + 1 - digits)
  rw [nearest_eq, ← hScaled]
  exact abs_roundDiv_sub_le _ hPositive

/-- The nearest decimal is off by half of its last digit at most. -/
theorem abs_nearest_sub_le :
    |(nearest digits num den).value - num / den| ≤
      10 ^ (leadingExponent num den + 1 - digits) / 2 := by
  have hPower := ten_zpow_pos (leadingExponent num den + 1 - digits)
  have hFactor : (nearest digits num den).value - num / den =
      ((nearest digits num den).significand -
        num / den / 10 ^ (leadingExponent num den + 1 - digits)) *
        10 ^ (leadingExponent num den + 1 - digits) := by
    rw [sub_mul, div_mul_cancel₀ _ (ne_of_gt hPower)]
    rfl
  rw [hFactor, abs_mul, abs_of_pos hPower]
  calc
    _ ≤ 1 / 2 * (10 : ℚ) ^ (leadingExponent num den + 1 - digits) :=
      mul_le_mul_of_nonneg_right (abs_significand_sub_le num digits hd) (le_of_lt hPower)
    _ = 10 ^ (leadingExponent num den + 1 - digits) / 2 := by ring

variable {num} (hn : 0 < num) (hDigits : 0 < digits)

include hn

theorem scaled_bounds :
    (10 : ℚ) ^ ((digits : ℤ) - 1) ≤ num / den / 10 ^ (leadingExponent num den + 1 - digits) ∧
      (num : ℚ) / den / 10 ^ (leadingExponent num den + 1 - digits) < 10 ^ digits := by
  obtain ⟨hLow, hHigh⟩ := leadingExponent_bounds hn hd
  have hPower := ten_zpow_pos (leadingExponent num den + 1 - digits)
  rw [le_div_iff₀ hPower, div_lt_iff₀ hPower, ← zpow_natCast, ← zpow_add₀ (by norm_num),
    ← zpow_add₀ (by norm_num)]
  have hFirst : (digits : ℤ) - 1 + (leadingExponent num den + 1 - digits) =
      leadingExponent num den := by ring
  have hLast : (digits : ℤ) + (leadingExponent num den + 1 - digits) =
      leadingExponent num den + 1 := by ring
  rw [hFirst, hLast]
  exact ⟨hLow, hHigh⟩

variable {digits}

include hDigits

/-- The significand has as many digits as were asked for, unless it was rounded up
to the next power of ten. -/
theorem significand_bounds :
    10 ^ (digits - 1) ≤ (nearest digits num den).significand ∧
      (nearest digits num den).significand ≤ 10 ^ digits := by
  obtain ⟨hLow, hHigh⟩ := scaled_bounds digits hd hn
  obtain ⟨hAbove, hBelow⟩ := abs_le.mp (abs_significand_sub_le num digits hd)
  have hExponent : ((digits : ℤ) - 1) = (digits - 1 : ℕ) := by omega
  rw [hExponent, zpow_natCast] at hLow
  have hLower : ((10 ^ (digits - 1) : ℕ) : ℚ) <
      ((nearest digits num den).significand + 1 : ℕ) := by
    push_cast
    linarith
  have hUpper : ((nearest digits num den).significand : ℚ) < (10 ^ digits + 1 : ℕ) := by
    push_cast
    linarith
  exact ⟨Nat.le_of_lt_succ (by exact_mod_cast hLower), Nat.le_of_lt_succ (by exact_mod_cast hUpper)⟩

end Significand

/-- With each digit more, the nearest decimal is ten times as near, in relation to
the number. -/
theorem abs_nearest_sub_le_div {num den : Nat} (hn : 0 < num) (hd : 0 < den) (digits : Nat) :
    |(nearest (digits + 1) num den).value - num / den| ≤ num / den / (2 * 10 ^ digits) := by
  obtain ⟨hLow, -⟩ := leadingExponent_bounds hn hd
  have hLast : (10 : ℚ) ^ (leadingExponent num den + 1 - (digits + 1 : ℕ)) =
      10 ^ leadingExponent num den / 10 ^ digits := by
    rw [Nat.cast_add_one, add_sub_add_right_eq_sub, zpow_sub₀ (by norm_num), zpow_natCast]
  calc
    _ ≤ (10 : ℚ) ^ (leadingExponent num den + 1 - (digits + 1 : ℕ)) / 2 :=
      abs_nearest_sub_le num (digits + 1) hd
    _ = 10 ^ leadingExponent num den / (2 * 10 ^ digits) := by
      rw [hLast]
      ring
    _ ≤ num / den / (2 * 10 ^ digits) := by gcongr

/-- If the last digit is a zero, one digit less gives the same number. -/
theorem nearest_value_of_zero {num den digits : Nat} (hd : 0 < den)
    (hZero : (nearest (digits + 1) num den).significand % 10 = 0) :
    (nearest digits num den).value = (nearest (digits + 1) num den).value := by
  have hStep : leadingExponent num den + 1 - (digits : ℤ) =
      leadingExponent num den + 1 - (digits + 1 : ℕ) + 1 := by
    push_cast
    ring
  obtain ⟨m, hm⟩ := Nat.dvd_of_mod_eq_zero hZero
  have hNear := abs_significand_sub_le num (digits + 1) hd
  obtain ⟨hPositive, hScaled⟩ := scaleDown_eq num hd (leadingExponent num den + 1 - digits)
  have hSame : (nearest digits num den).significand = m := by
    refine roundDiv_eq hPositive ?_
    rw [hScaled, hStep, zpow_add_one₀ (by norm_num), ← div_div]
    rw [hm, Nat.cast_mul, Nat.cast_ofNat] at hNear
    rw [abs_le] at hNear
    rw [abs_lt]
    constructor <;> linarith
  have hExponent : (nearest digits num den).exponent =
      (nearest (digits + 1) num den).exponent + 1 := hStep
  rw [value, value, hSame, hm, hExponent, zpow_add_one₀ (by norm_num)]
  push_cast
  ring

/-- The double nearest to a decimal is the one nearest to the number that the
decimal stands for. -/
theorem toFloat_eq (d : Decimal) : ∃ num den : Nat, 0 < den ∧
    (num : ℚ) / den = d.value * 2 ^ Format.double.scale ∧
    ∀ negative, d.toFloat negative = Number.ofUnits negative num den := by
  by_cases hExponent : 0 ≤ d.exponent
  · obtain ⟨k, hk⟩ := Int.eq_ofNat_of_zero_le hExponent
    refine ⟨_, 1, Nat.one_pos, ?_, fun negative => if_pos hExponent⟩
    rw [value, hk, Int.toNat_natCast, zpow_natCast]
    push_cast
    ring
  · obtain ⟨k, hk⟩ := Int.eq_ofNat_of_zero_le (show 0 ≤ -d.exponent by omega)
    refine ⟨_, _, Nat.pow_pos (by norm_num), ?_, fun negative => if_neg hExponent⟩
    have hNegative : d.exponent = -(k : ℤ) := by omega
    rw [value, hk, Int.toNat_natCast, hNegative, zpow_neg, zpow_natCast]
    push_cast
    ring

/-- How a decimal is written makes no difference to the double that is read. -/
theorem toFloat_congr {d d' : Decimal} (h : d.value = d'.value) (negative : Bool) :
    d.toFloat negative = d'.toFloat negative := by
  obtain ⟨num, den, hd, hValue, hFloat⟩ := d.toFloat_eq
  obtain ⟨num', den', hd', hValue', hFloat'⟩ := d'.toFloat_eq
  have hSame : (num : ℚ) / den = num' / den' := by rw [hValue, hValue', h]
  rw [hFloat, hFloat', Number.ofUnits, Number.ofUnits, Format.nearest_congr _ hd hd' hSame]

theorem value_go (fuel n : Nat) (e : ℤ) : (trim.go fuel n e).value = n * 10 ^ e := by
  induction fuel generalizing n e with
  | zero => rfl
  | succ fuel ih =>
      rw [trim.go]
      split
      · next hZero =>
          have hTenth : (n : ℚ) = (n / 10 : ℕ) * 10 := by
            have hNat : n = n / 10 * 10 := by omega
            exact_mod_cast hNat
          rw [ih, zpow_add_one₀ (by norm_num), hTenth]
          ring
      · rfl

/-- Dropping zeros leaves the number as it is. -/
theorem value_trim (d : Decimal) : d.trim.value = d.value := value_go _ _ _

theorem trim_of_last {d : Decimal} (h : d.significand % 10 ≠ 0) : d.trim = d := by
  unfold trim
  generalize digitCount d.significand = fuel
  cases fuel with
  | zero => rfl
  | succ fuel => rw [trim.go, if_neg fun hZero => h hZero.1]

/-- A power of ten that was rounded up to has one digit left. -/
theorem trim_ten (e : ℤ) : (⟨10, e⟩ : Decimal).trim = ⟨1, e + 1⟩ := by
  have hCount : digitCount 10 = 2 := digitCount_eq (by norm_num) (by norm_num) (by norm_num)
  simp [trim, hCount, trim.go]

end Reckoner.Decimal
