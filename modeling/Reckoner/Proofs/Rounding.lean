import Reckoner.Proofs.Representable
import Mathlib.Data.Rat.Cast.Order
import Mathlib.Tactic.FieldSimp
import Mathlib.Tactic.GCongr
import Mathlib.Tactic.Linarith
import Mathlib.Tactic.Positivity
import Mathlib.Tactic.Ring

/-! Rounding as it is seen from the rational numbers. A rounded quotient is off by
half at most, and what is less than half away from a natural number is rounded to
it. For a format this gives how far the nearest magnitude can be away, and how
near a number must be to a magnitude in order to be rounded to it. -/
namespace Reckoner

attribute [local instance] naturalPower

/-- A rational number is its whole part and a fraction. -/
theorem cast_div_eq (num : Nat) {den : Nat} (hd : 0 < den) :
    (num : ℚ) / den = (num / den : ℕ) + (num % den : ℕ) / den := by
  have hDen : (0 : ℚ) < den := by exact_mod_cast hd
  have hSum : (num : ℚ) = den * (num / den : ℕ) + (num % den : ℕ) := by
    exact_mod_cast (Nat.div_add_mod num den).symm
  field_simp
  exact hSum

/-- What rounding to a natural number adds or takes away. -/
theorem abs_roundDiv_sub_le (num : Nat) {den : Nat} (hd : 0 < den) :
    |(roundDiv num den : ℚ) - num / den| ≤ 1 / 2 := by
  have hDen : (0 : ℚ) < den := by exact_mod_cast hd
  have hLow : (0 : ℚ) ≤ (num % den : ℕ) / den := by positivity
  have hHigh : ((num % den : ℕ) : ℚ) / den < 1 := by
    rw [div_lt_one hDen]
    exact_mod_cast Nat.mod_lt num hd
  rw [cast_div_eq num hd, abs_le, roundDiv]
  split
  · next hDown =>
      have hHalf : ((num % den : ℕ) : ℚ) / den ≤ 1 / 2 := by
        have hRest : 2 * (num % den) ≤ den := by omega
        have hCast : 2 * ((num % den : ℕ) : ℚ) ≤ den := by exact_mod_cast hRest
        rw [div_le_iff₀ hDen]
        linarith
      constructor <;> linarith
  · next hUp =>
      have hHalf : (1 : ℚ) / 2 ≤ (num % den : ℕ) / den := by
        have hRest : den ≤ 2 * (num % den) := by omega
        have hCast : (den : ℚ) ≤ 2 * (num % den : ℕ) := by exact_mod_cast hRest
        rw [le_div_iff₀ hDen]
        linarith
      push_cast
      constructor <;> linarith

/-- No other natural number is so near. -/
theorem roundDiv_eq {num den n : Nat} (hd : 0 < den) (h : |(n : ℚ) - num / den| < 1 / 2) :
    roundDiv num den = n := by
  have hRounded := abs_roundDiv_sub_le num hd
  have hApart : |((roundDiv num den : ℤ) : ℚ) - (n : ℤ)| < 1 := by
    rw [abs_lt] at h ⊢
    rw [abs_le] at hRounded
    push_cast
    constructor <;> linarith
  have hSame : |(roundDiv num den : ℤ) - n| < 1 := by exact_mod_cast hApart
  have hZero := Int.abs_lt_one_iff.mp hSame
  omega

theorem roundDiv_scale (num den : Nat) {k : Nat} (hk : 0 < k) :
    roundDiv (k * num) (k * den) = roundDiv num den := by
  have hLess : 2 * (k * (num % den)) < k * den ↔ 2 * (num % den) < den := by
    rw [Nat.mul_left_comm, Nat.mul_lt_mul_left hk]
  have hEqual : 2 * (k * (num % den)) = k * den ↔ 2 * (num % den) = den := by
    rw [Nat.mul_left_comm, Nat.mul_right_inj (Nat.ne_of_gt hk)]
  simp only [roundDiv, Nat.mul_mod_mul_left, Nat.mul_div_mul_left _ _ hk, hLess, hEqual]

namespace Format

variable {f : Format} {num den : Nat}

theorem nearest_scale (f : Format) (num den : Nat) {k : Nat} (hk : 0 < k) :
    f.nearest (k * num) (k * den) = f.nearest num den := by
  simp only [nearest, Nat.mul_div_mul_left _ _ hk, Nat.mul_assoc, roundDiv_scale _ _ hk]

/-- Rounding sees the rational number and not how it is written. -/
theorem nearest_congr (f : Format) {num' den' : Nat} (hd : 0 < den) (hd' : 0 < den')
    (h : (num : ℚ) / den = num' / den') : f.nearest num den = f.nearest num' den' := by
  have hCross : den' * num = den * num' := by
    have hDen : (den : ℚ) ≠ 0 := by exact_mod_cast Nat.ne_of_gt hd
    have hDen' : (den' : ℚ) ≠ 0 := by exact_mod_cast Nat.ne_of_gt hd'
    rw [div_eq_div_iff hDen hDen'] at h
    have hNat : num * den' = num' * den := by exact_mod_cast h
    rw [Nat.mul_comm, hNat, Nat.mul_comm]
  rw [← nearest_scale f num den hd', hCross, Nat.mul_comm den' den, nearest_scale f num' den' hd]

/-- By how many places the significand of the nearest magnitude is shifted. -/
def shift (f : Format) (num den : Nat) : Nat := (num / den).log2 + 1 - f.precision

theorem nearest_eq_shift (f : Format) (num den : Nat) : f.nearest num den =
    min (roundDiv num (den * 2 ^ f.shift num den) + f.shift num den * f.binade) f.infinity := rfl

theorem two_binades (hBits : 0 < f.precision) (s : Nat) :
    2 * f.binade * 2 ^ s = 2 ^ (f.precision + s) := by
  rw [binade, ← Nat.pow_succ', Nat.succ_eq_add_one, Nat.sub_add_cancel hBits, ← Nat.pow_add]

/-- One bit too many in the significand is one place more of the shift. -/
theorem two_binades_add (f : Format) (s : Nat) :
    2 * f.binade + s * f.binade = f.binade + (s + 1) * f.binade := by
  rw [Nat.add_mul]
  omega

theorem two_pow_precision (hBits : 0 < f.precision) : (2 : ℚ) ^ f.precision = 2 * f.binade := by
  have hBinades := two_binades hBits 0
  rw [Nat.pow_zero, Nat.mul_one, Nat.add_zero] at hBinades
  exact_mod_cast hBinades.symm

section Shift

variable (hBits : 0 < f.precision) (hd : 0 < den)

include hBits hd

theorem shift_le_iff {s : Nat} :
    f.shift num den ≤ s ↔ (num : ℚ) / den < 2 * f.binade * 2 ^ s := by
  have hDen : (0 : ℚ) < den := by exact_mod_cast hd
  have hQuotient : (num : ℚ) / den < 2 * f.binade * 2 ^ s ↔ num / den < 2 ^ (f.precision + s) := by
    rw [div_lt_iff₀ hDen, Nat.div_lt_iff_lt_mul hd, ← two_binades hBits]
    exact_mod_cast Iff.rfl
  rw [hQuotient, shift]
  by_cases hZero : num / den = 0
  · have hPositive := Nat.two_pow_pos (f.precision + s)
    rw [hZero, Nat.log2_zero]
    omega
  · rw [← Nat.log2_lt hZero]
    omega

/-- Only a significand that uses all bits is shifted. -/
theorem binade_le_of_shift (hShift : f.shift num den ≠ 0) :
    (f.binade : ℚ) * 2 ^ f.shift num den ≤ num / den := by
  have hLess : ¬ f.shift num den ≤ f.shift num den - 1 := by omega
  rw [shift_le_iff hBits hd, not_lt] at hLess
  have hPower : (2 : ℚ) ^ f.shift num den = 2 * 2 ^ (f.shift num den - 1) := by
    rw [← pow_succ', Nat.sub_add_cancel (Nat.pos_of_ne_zero hShift)]
  calc
    (f.binade : ℚ) * 2 ^ f.shift num den = 2 * f.binade * 2 ^ (f.shift num den - 1) := by
      rw [hPower]
      ring
    _ ≤ num / den := hLess

theorem shift_eq {s : Nat} (hLow : s = 0 ∨ (f.binade : ℚ) * 2 ^ s ≤ num / den)
    (hHigh : (num : ℚ) / den < 2 * f.binade * 2 ^ s) : f.shift num den = s := by
  refine Nat.le_antisymm ((shift_le_iff hBits hd).mpr hHigh) ?_
  rcases hLow with rfl | hLow
  · exact Nat.zero_le _
  · by_contra hLess
    have hShift : f.shift num den ≤ s - 1 := by omega
    have hPower : (2 : ℚ) ^ s = 2 * 2 ^ (s - 1) := by
      rw [← pow_succ', Nat.sub_add_cancel (by omega)]
    rw [shift_le_iff hBits hd] at hShift
    rw [hPower] at hLow
    linarith

end Shift

/-- The magnitude of a significand that was rounded. It may have become too large
by one bit, and is then the least significand of the next binade. -/
theorem units_add_binades {r s : Nat} (hr : r ≤ 2 * f.binade) (hs : s = 0 ∨ f.binade ≤ r) :
    f.units (r + s * f.binade) = r * 2 ^ s := by
  rcases Nat.lt_or_eq_of_le hr with hNarrow | rfl
  · exact Fits.units_eq ⟨hNarrow, hs⟩
  · have hFits : f.Fits f.binade (s + 1) := by
      have hPositive := f.binade_pos
      exact ⟨by omega, .inr (Nat.le_refl _)⟩
    rw [two_binades_add, hFits.units_eq, Nat.pow_succ']
    exact Nat.mul_left_comm _ _ _ |>.trans (Nat.mul_assoc _ _ _).symm

theorem abs_roundDiv_shift_le (num : Nat) (hd : 0 < den) (s : Nat) :
    |(roundDiv num (den * 2 ^ s) : ℚ) - num / den / 2 ^ s| ≤ 1 / 2 := by
  have hRounded := abs_roundDiv_sub_le num (Nat.mul_pos hd (Nat.two_pow_pos s))
  rwa [Nat.cast_mul, Nat.cast_pow, Nat.cast_ofNat, ← div_div] at hRounded

/-- A rational number is rounded to a significand and a shift if it is less than
half of the last bit away, and the shift is the right one for it. -/
theorem nearest_eq_of_shift (hd : 0 < den) {r s : Nat} (hShift : f.shift num den = s)
    (hNear : |(r : ℚ) * 2 ^ s - num / den| < 2 ^ s / 2) :
    f.nearest num den = min (r + s * f.binade) f.infinity := by
  have hPower : (0 : ℚ) < 2 ^ s := by positivity
  have hScaled : |(r : ℚ) - num / (den * 2 ^ s : ℕ)| < 1 / 2 := by
    have hFactor : (r : ℚ) * 2 ^ s - num / den = (r - num / (den * 2 ^ s : ℕ)) * 2 ^ s := by
      push_cast
      rw [sub_mul, ← div_div, div_mul_cancel₀ _ (ne_of_gt hPower)]
    rw [hFactor, abs_mul, abs_of_pos hPower] at hNear
    exact lt_of_mul_lt_mul_right (by linarith) (le_of_lt hPower)
  rw [nearest_eq_shift, hShift, roundDiv_eq (Nat.mul_pos hd (Nat.two_pow_pos s)) hScaled]

section Error

variable (hBits : 0 < f.precision) (hd : 0 < den)

include hBits hd

theorem roundDiv_shift_le : roundDiv num (den * 2 ^ f.shift num den) ≤ 2 * f.binade := by
  have hRounded := (abs_le.mp (abs_roundDiv_shift_le num hd (f.shift num den))).2
  have hScaled : (num : ℚ) / den / 2 ^ f.shift num den < 2 * f.binade := by
    rw [div_lt_iff₀ (by positivity)]
    exact (shift_le_iff hBits hd).mp (Nat.le_refl _)
  have hLess : (roundDiv num (den * 2 ^ f.shift num den) : ℚ) < (2 * f.binade + 1 : ℕ) := by
    push_cast
    linarith
  have hNat : roundDiv num (den * 2 ^ f.shift num den) < 2 * f.binade + 1 := by
    exact_mod_cast hLess
  omega

theorem binade_le_roundDiv_shift (hShift : f.shift num den ≠ 0) :
    f.binade ≤ roundDiv num (den * 2 ^ f.shift num den) := by
  have hRounded := (abs_le.mp (abs_roundDiv_shift_le num hd (f.shift num den))).1
  have hScaled : (f.binade : ℚ) ≤ num / den / 2 ^ f.shift num den := by
    rw [le_div_iff₀ (by positivity)]
    exact binade_le_of_shift hBits hd hShift
  have hLess : (f.binade : ℚ) < (roundDiv num (den * 2 ^ f.shift num den) + 1 : ℕ) := by
    push_cast
    linarith
  have hNat : f.binade < roundDiv num (den * 2 ^ f.shift num den) + 1 := by exact_mod_cast hLess
  omega

/-- The magnitude that a rational number is rounded to, unless it is infinite. -/
theorem units_nearest (hFinite : f.nearest num den < f.infinity) :
    f.units (f.nearest num den) =
      roundDiv num (den * 2 ^ f.shift num den) * 2 ^ f.shift num den := by
  rw [nearest_eq_shift] at hFinite ⊢
  rw [Nat.min_eq_left (by omega)]
  apply units_add_binades (roundDiv_shift_le hBits hd)
  rw [or_iff_not_imp_left]
  exact binade_le_roundDiv_shift hBits hd

/-- In the range where all bits are used, rounding changes a number by half of the
last bit at most. -/
theorem abs_units_nearest_sub_le (hFinite : f.nearest num den < f.infinity)
    (hNormal : (f.binade : ℚ) ≤ num / den) :
    |(f.units (f.nearest num den) : ℚ) - num / den| ≤ num / den / 2 ^ f.precision := by
  have hPlaces : (f.binade : ℚ) * 2 ^ f.shift num den ≤ num / den := by
    by_cases hShift : f.shift num den = 0
    · rw [hShift, pow_zero, mul_one]
      exact hNormal
    · exact binade_le_of_shift hBits hd hShift
  have hPositive : (0 : ℚ) < f.binade := by exact_mod_cast f.binade_pos
  have hPower : (0 : ℚ) < 2 ^ f.shift num den := by positivity
  have hRounded := abs_roundDiv_shift_le num hd (f.shift num den)
  have hFactor : (f.units (f.nearest num den) : ℚ) - num / den =
      (roundDiv num (den * 2 ^ f.shift num den) - num / den / 2 ^ f.shift num den) *
        2 ^ f.shift num den := by
    rw [units_nearest hBits hd hFinite, sub_mul, div_mul_cancel₀ _ (ne_of_gt hPower)]
    push_cast
    rfl
  calc
    |(f.units (f.nearest num den) : ℚ) - num / den|
        ≤ 1 / 2 * 2 ^ f.shift num den := by
      rw [hFactor, abs_mul, abs_of_pos hPower]
      exact mul_le_mul_of_nonneg_right hRounded (le_of_lt hPower)
    _ = f.binade * 2 ^ f.shift num den / 2 ^ f.precision := by
      rw [two_pow_precision hBits]
      field_simp
    _ ≤ num / den / 2 ^ f.precision := by gcongr

/-- A number below the last binades is not rounded to infinity. -/
theorem nearest_lt_infinity {s : Nat} (hSmall : (num : ℚ) / den < 2 * f.binade * 2 ^ s)
    (hRoom : (s + 2) * f.binade < f.infinity) : f.nearest num den < f.infinity := by
  have hShift := (shift_le_iff hBits hd).mpr hSmall
  have hRounded : roundDiv num (den * 2 ^ f.shift num den) ≤ 2 * f.binade :=
    roundDiv_shift_le hBits hd
  have hPlaces : f.shift num den * f.binade ≤ s * f.binade := Nat.mul_le_mul_right _ hShift
  rw [Nat.add_mul] at hRoom
  rw [nearest_eq_shift]
  omega

/-- Just below a binade, the significand is rounded up to the least one in it. -/
theorem nearest_eq_of_below {s : Nat} (hBelow : (num : ℚ) / den < f.binade * 2 ^ (s + 1))
    (hNear : (f.binade : ℚ) * 2 ^ (s + 1) - num / den < 2 ^ (s + 1) / 4) :
    f.nearest num den = min (f.binade + (s + 1) * f.binade) f.infinity := by
  have hPower : (0 : ℚ) < 2 ^ s := by positivity
  have hBinade : (1 : ℚ) ≤ f.binade := by exact_mod_cast f.binade_pos
  rw [pow_succ'] at hBelow hNear
  have hLow : (f.binade : ℚ) * 2 ^ s ≤ num / den := by nlinarith
  have hShift : f.shift num den = s := shift_eq hBits hd (.inr hLow) (by linarith)
  have hHalf : |((2 * f.binade : ℕ) : ℚ) * 2 ^ s - num / den| < 2 ^ s / 2 := by
    push_cast
    rw [abs_of_pos] <;> linarith
  rw [nearest_eq_of_shift hd hShift hHalf, two_binades_add]

/-- What is near enough to a magnitude is rounded to it. At the least significand
of a binade the magnitudes below are twice as close together, which is why the
distance is measured against twice the precision. -/
theorem nearest_eq_of_close {code : Nat} (hCode : code < f.infinity)
    (hClose : |(f.units code : ℚ) - num / den| * 2 ^ (f.precision + 1) < f.units code) :
    f.nearest num den = code := by
  obtain ⟨a, s, hFits, rfl⟩ := f.exists_fits code
  have hPower : (0 : ℚ) < 2 ^ s := by positivity
  have hBinade : (0 : ℚ) < f.binade := by exact_mod_cast f.binade_pos
  have hNarrow : (a : ℚ) + 1 ≤ 2 * f.binade := by exact_mod_cast hFits.narrow
  rw [hFits.units_eq, pow_succ, two_pow_precision hBits] at hClose
  push_cast at hClose
  -- The distance is less than half of the last bit.
  have hNear : |(a : ℚ) * 2 ^ s - num / den| < a * 2 ^ s / (4 * f.binade) := by
    rw [lt_div_iff₀ (by positivity)]
    linarith
  have hQuarter : (a : ℚ) * 2 ^ s / (4 * f.binade) < 2 ^ s / 2 := by
    rw [div_lt_iff₀ (by positivity)]
    nlinarith
  obtain ⟨hLow, hHigh⟩ := abs_lt.mp hNear
  have hUpper : (num : ℚ) / den < 2 * f.binade * 2 ^ s := by nlinarith
  by_cases hInside : s = 0 ∨ (f.binade : ℚ) * 2 ^ s ≤ num / den
  · have hShift := shift_eq hBits hd hInside hUpper
    rw [nearest_eq_of_shift hd hShift (hNear.trans hQuarter)]
    exact Nat.min_eq_left (Nat.le_of_lt hCode)
  · -- The number lies below the binade, so the magnitude is the least one in it.
    rw [not_or, not_le] at hInside
    obtain ⟨hShifted, hBelow⟩ := hInside
    have hFull : f.binade ≤ a := hFits.full.resolve_left hShifted
    have hLeast : a = f.binade := by
      have hLess : (a : ℚ) * 2 ^ s < (f.binade + 1 : ℕ) * 2 ^ s := by
        push_cast
        linarith
      have hNat : (a : ℚ) < (f.binade + 1 : ℕ) := lt_of_mul_lt_mul_right hLess (le_of_lt hPower)
      have hBound : a < f.binade + 1 := by exact_mod_cast hNat
      omega
    subst hLeast
    obtain ⟨k, rfl⟩ := Nat.exists_eq_succ_of_ne_zero hShifted
    have hGap : (f.binade : ℚ) * 2 ^ (k + 1) / (4 * f.binade) = 2 ^ (k + 1) / 4 := by field_simp
    rw [nearest_eq_of_below hBits hd hBelow (hGap ▸ hHigh)]
    exact Nat.min_eq_left (Nat.le_of_lt hCode)

end Error
end Format
end Reckoner
