import Reckoner.Proofs.Rounding
import Mathlib.Tactic.Field
import Mathlib.Tactic.Linarith
import Mathlib.Tactic.NormNum
import Mathlib.Tactic.Positivity

/-! Rounding to nearest is correct. A code stands for the rational number that its
fields spell. Of all these numbers, what a rational number is rounded to is the
nearest one, and the one with the even significand where two are equally near; what
is half a step beyond the largest of them, or more, becomes infinite. And a larger
number is never rounded to a smaller one. -/
namespace Reckoner

attribute [local instance] naturalPower

section RoundDiv

variable (num : Nat) {den : Nat} (hd : 0 < den)

/-- Different natural numbers are at least one apart. -/
theorem one_le_add_abs_roundDiv_sub {n : Nat} (hOther : n ≠ roundDiv num den) :
    1 ≤ |(n : ℚ) - num / den| + |(roundDiv num den : ℚ) - num / den| := by
  have hApart : (1 : ℤ) ≤ |(n : ℤ) - roundDiv num den| := Int.one_le_abs (by omega)
  calc
    (1 : ℚ) ≤ |(n : ℚ) - roundDiv num den| := by exact_mod_cast hApart
    _ ≤ |(n : ℚ) - num / den| + |(num : ℚ) / den - roundDiv num den| := abs_sub_le _ _ _
    _ = _ := by rw [abs_sub_comm ((num : ℚ) / den)]

include hd

/-- No natural number is nearer than the rounded one. -/
theorem abs_roundDiv_sub_le_abs (n : Nat) :
    |(roundDiv num den : ℚ) - num / den| ≤ |(n : ℚ) - num / den| := by
  by_cases hSame : n = roundDiv num den
  · rw [hSame]
  · have hApart := one_le_add_abs_roundDiv_sub num hSame
    have hHalf := abs_roundDiv_sub_le num hd
    linarith

/-- A tie goes to the even neighbour. -/
theorem even_roundDiv_of_half (hTie : |(roundDiv num den : ℚ) - num / den| = 1 / 2) :
    Even (roundDiv num den) := by
  have hDen : (0 : ℚ) < den := by exact_mod_cast hd
  have hHalf (h : ((num % den : ℕ) : ℚ) / den = 1 / 2) : 2 * (num % den) = den := by
    rw [div_eq_div_iff (ne_of_gt hDen) two_ne_zero] at h
    have hNat : num % den * 2 = 1 * den := by exact_mod_cast h
    omega
  have hLow : (0 : ℚ) ≤ (num % den : ℕ) / den := by positivity
  rw [cast_div_eq num hd, roundDiv] at hTie
  rw [Nat.even_iff, roundDiv]
  split at hTie
  · next hDown =>
      rw [sub_add_cancel_left, abs_neg, abs_of_nonneg hLow] at hTie
      have hMiddle := hHalf hTie
      rw [if_pos hDown]
      omega
  · next hUp =>
      have hHigh : ((num % den : ℕ) : ℚ) / den < 1 := by
        rw [div_lt_one hDen]
        exact_mod_cast Nat.mod_lt num hd
      rw [Nat.cast_add_one, add_sub_add_left_eq_sub, abs_of_pos (by linarith)] at hTie
      have hMiddle := hHalf (by linarith)
      rw [if_neg hUp]
      omega

theorem even_roundDiv_of_tie {n : Nat} (hOther : n ≠ roundDiv num den)
    (hTie : |(n : ℚ) - num / den| = |(roundDiv num den : ℚ) - num / den|) :
    Even (roundDiv num den) := by
  have hApart := one_le_add_abs_roundDiv_sub num hOther
  have hHalf := abs_roundDiv_sub_le num hd
  exact even_roundDiv_of_half num hd (by linarith)

/-- The middle before an even number is already rounded up to it. -/
theorem roundDiv_lt_iff_of_even {n : Nat} (hEven : Even n) :
    roundDiv num den < n ↔ (num : ℚ) / den < n - 1 / 2 := by
  obtain ⟨hBelow, hAbove⟩ := abs_le.mp (abs_roundDiv_sub_le num hd)
  constructor
  · intro hLess
    by_contra hMiddle
    have hCast : (roundDiv num den : ℚ) + 1 ≤ n := by exact_mod_cast hLess
    have hNext : n = roundDiv num den + 1 := by
      have hRounded : (n : ℚ) ≤ (roundDiv num den + 1 : ℕ) := by
        push_cast
        linarith
      have hNat : n ≤ roundDiv num den + 1 := by exact_mod_cast hRounded
      omega
    have hTie : |(roundDiv num den : ℚ) - num / den| = 1 / 2 := by
      rw [abs_of_nonpos (by linarith)]
      linarith
    have hOdd := even_roundDiv_of_half num hd hTie
    rw [hNext, Nat.even_add_one] at hEven
    exact hEven hOdd
  · intro hMiddle
    have hCast : (roundDiv num den : ℚ) < n := by linarith
    exact_mod_cast hCast

end RoundDiv

theorem roundDiv_mono {num num' den : Nat} (hd : 0 < den) (h : num ≤ num') :
    roundDiv num den ≤ roundDiv num' den := by
  have hDen : (0 : ℚ) < den := by exact_mod_cast hd
  rcases Nat.eq_or_lt_of_le h with rfl | hLess
  · exact Nat.le_refl _
  · have hQuotient : (num : ℚ) / den < num' / den := by
      have hCast : (num : ℚ) < num' := by exact_mod_cast hLess
      gcongr
    have hBelow := (abs_le.mp (abs_roundDiv_sub_le num hd)).2
    have hAbove := (abs_le.mp (abs_roundDiv_sub_le num' hd)).1
    have hRounded : (roundDiv num den : ℚ) < roundDiv num' den + 1 := by linarith
    have hNat : roundDiv num den < roundDiv num' den + 1 := by exact_mod_cast hRounded
    omega

namespace Format

/-- A format whose significands have more than one bit, and whose exponents too. -/
structure WellFormed (f : Format) : Prop where
  precision : 2 ≤ f.precision
  exponentBits : 2 ≤ f.exponentBits

theorem wellFormed_single : single.WellFormed := ⟨by decide, by decide⟩

theorem wellFormed_double : double.WellFormed := ⟨by decide, by decide⟩

/-! What codes stand for. -/

/-- What is taken away from the exponent field. -/
def bias (f : Format) : Nat := 2 ^ (f.exponentBits - 1) - 1

/-- The fraction field with the hidden bit, which is missing where the exponent
field is zero. -/
def significand (f : Format) (code : Nat) : Nat :=
  if code / f.binade = 0 then code % f.binade else f.binade + code % f.binade

/-- The exponent of the last bit of the significand. The exponent field zero stands
for the same exponent as one. -/
def lastExponent (f : Format) (code : Nat) : ℤ :=
  (max (code / f.binade) 1 : ℕ) - f.bias - (f.precision - 1)

def sign (negative : Bool) : ℚ := if negative then -1 else 1

/-- The rational number that a sign and a finite code stand for. -/
def value (f : Format) (negative : Bool) (code : Nat) : ℚ :=
  sign negative * (f.significand code * 2 ^ f.lastExponent code)

/-- The least magnitude that is too large to be rounded to a finite one. It is half a
step beyond the largest. -/
def overflow (f : Format) : ℚ := 2 ^ (f.bias + 1) - 2 ^ (f.bias - f.precision : ℤ)

/-- A sign and a finite code stand for the number of the format that is nearest to a
rational number; if another one is equally near, the significand is even. -/
structure IsNearest (f : Format) (q : ℚ) (negative : Bool) (code : Nat) : Prop where
  finite : code < f.infinity
  least : ∀ negative' code', code' < f.infinity →
    |f.value negative code - q| ≤ |f.value negative' code' - q|
  even : ∀ negative' code', code' < f.infinity →
    |f.value negative' code' - q| = |f.value negative code - q| →
    f.value negative' code' ≠ f.value negative code → Even (f.significand code)

variable {f : Format} {num num' den : Nat}

theorem units_zero (f : Format) : f.units 0 = 0 := if_pos f.binade_pos

theorem units_eq_significand (f : Format) (code : Nat) :
    f.units code = f.significand code * 2 ^ (max (code / f.binade) 1 - 1) := by
  unfold units significand
  rcases Nat.lt_or_ge code f.binade with hLow | hHigh
  · rw [if_pos hLow, Nat.div_eq_of_lt hLow, if_pos rfl, Nat.mod_eq_of_lt hLow]
    simp
  · have hBinades : 0 < code / f.binade := Nat.div_pos hHigh f.binade_pos
    rw [if_neg (Nat.not_lt.mpr hHigh), if_neg (Nat.ne_of_gt hBinades), Nat.max_eq_left hBinades]

section WellFormed

variable (hf : f.WellFormed)

include hf

theorem WellFormed.half_exponents :
    2 ≤ 2 ^ (f.exponentBits - 1) ∧ 2 ^ f.exponentBits = 2 * 2 ^ (f.exponentBits - 1) := by
  have hBits := hf.exponentBits
  constructor
  · calc
      2 = 2 ^ 1 := rfl
      _ ≤ 2 ^ (f.exponentBits - 1) := Nat.pow_le_pow_right (by norm_num) (by omega)
  · rw [← Nat.pow_succ', Nat.succ_eq_add_one, Nat.sub_add_cancel (by omega)]

/-- The units of a format are those of the last bit of its least exponent. -/
theorem value_eq (negative : Bool) (code : Nat) :
    f.value negative code = sign negative * (f.units code / 2 ^ f.scale) := by
  have hBits := hf.precision
  obtain ⟨hHalf, -⟩ := hf.half_exponents
  have hExponent : f.lastExponent code = ((max (code / f.binade) 1 - 1 : ℕ) : ℤ) - f.scale := by
    have hOne : 1 ≤ max (code / f.binade) 1 := Nat.le_max_right _ _
    unfold lastExponent bias scale
    omega
  rw [value, units_eq_significand, hExponent, zpow_sub₀ two_ne_zero, zpow_natCast, zpow_natCast]
  push_cast
  ring

theorem WellFormed.even_binade : Even f.binade := by
  have hBits := hf.precision
  rw [binade, show f.precision - 1 = f.precision - 2 + 1 by omega, Nat.pow_succ]
  exact even_two.mul_left _

theorem even_significand (code : Nat) : Even (f.significand code) ↔ Even code := by
  have hBinade := hf.even_binade
  have hCode : Even code ↔ Even (code % f.binade) := by
    conv_lhs => rw [← Nat.div_add_mod code f.binade]
    rw [Nat.even_add, iff_comm]
    simp [hBinade.mul_right]
  unfold significand
  split
  · exact hCode.symm
  · rw [hCode, Nat.even_add]
    simp [hBinade]

end WellFormed

/-! Rounding among the magnitudes of a format, in units. -/

section Magnitudes

variable (hBits : 0 < f.precision) (hd : 0 < den)

include hBits hd

theorem shift_mono (h : num ≤ num') : f.shift num den ≤ f.shift num' den := by
  have hDen : (0 : ℚ) < den := by exact_mod_cast hd
  have hCast : (num : ℚ) ≤ num' := by exact_mod_cast h
  rw [shift_le_iff hBits hd]
  calc
    (num : ℚ) / den ≤ num' / den := by gcongr
    _ < _ := (shift_le_iff hBits hd).mp (Nat.le_refl _)

/-- A larger number is not rounded to a smaller code. -/
theorem nearest_mono (h : num ≤ num') : f.nearest num den ≤ f.nearest num' den := by
  have hStep : roundDiv num (den * 2 ^ f.shift num den) + f.shift num den * f.binade ≤
      roundDiv num' (den * 2 ^ f.shift num' den) + f.shift num' den * f.binade := by
    rcases Nat.eq_or_lt_of_le (shift_mono (f := f) hBits hd h) with hSame | hLess
    · rw [hSame]
      exact Nat.add_le_add_right (roundDiv_mono (Nat.mul_pos hd (Nat.two_pow_pos _)) h) _
    · calc
        _ ≤ 2 * f.binade + f.shift num den * f.binade :=
          Nat.add_le_add_right (roundDiv_shift_le hBits hd) _
        _ = f.binade + (f.shift num den + 1) * f.binade := two_binades_add f _
        _ ≤ _ := Nat.add_le_add (binade_le_roundDiv_shift hBits hd (by omega))
          (Nat.mul_le_mul_right _ hLess)
  rw [nearest_eq_shift, nearest_eq_shift]
  omega

omit hd in
/-- The larger of two finite codes stands for the larger magnitude. -/
theorem units_lt_units {c c' : Nat} (hFinite : c' < f.infinity) (h : c < c') :
    f.units c < f.units c' := by
  by_contra hLess
  have hRounded := nearest_mono (f := f) hBits Nat.one_pos
    (Nat.mul_le_mul_right 1 (not_lt.mp hLess))
  rw [f.nearest_units hBits hFinite Nat.one_pos,
    f.nearest_units hBits (h.trans hFinite) Nat.one_pos] at hRounded
  omega

omit hBits hd in
/-- Seen from a place of the significand, a magnitude is a whole number of its steps,
or lies below all magnitudes whose significand has its last bit there. -/
theorem units_aligned (f : Format) (code s : Nat) :
    (∃ n, f.units code = n * 2 ^ s) ∨ (s ≠ 0 ∧ f.units code < f.binade * 2 ^ s) := by
  obtain ⟨a, t, hFits, rfl⟩ := f.exists_fits code
  rw [hFits.units_eq]
  rcases Nat.lt_or_ge t s with hBelow | hAligned
  · refine .inr ⟨by omega, ?_⟩
    calc
      a * 2 ^ t < 2 * f.binade * 2 ^ t :=
        Nat.mul_lt_mul_of_pos_right hFits.narrow (Nat.two_pow_pos t)
      _ = f.binade * 2 ^ (t + 1) := by rw [Nat.pow_succ']; ring
      _ ≤ f.binade * 2 ^ s := Nat.mul_le_mul_left _ (Nat.pow_le_pow_right (by norm_num) hBelow)
  · refine .inl ⟨a * 2 ^ (t - s), ?_⟩
    rw [Nat.mul_assoc, ← Nat.pow_add, Nat.sub_add_cancel hAligned]

omit hBits hd in
/-- The distance from a whole number of steps, measured in steps. -/
theorem abs_steps_sub (num den n s : Nat) : |((n * 2 ^ s : ℕ) : ℚ) - num / den| =
    |(n : ℚ) - num / (den * 2 ^ s : ℕ)| * 2 ^ s := by
  have hPower : (0 : ℚ) < 2 ^ s := by positivity
  have hFactor : ((n * 2 ^ s : ℕ) : ℚ) - num / den = (n - num / (den * 2 ^ s : ℕ)) * 2 ^ s := by
    push_cast
    rw [sub_mul, ← div_div, div_mul_cancel₀ _ (ne_of_gt hPower)]
  rw [hFactor, abs_mul, abs_of_pos hPower]

/-- A magnitude below the place where the significand of a number has its last bit is
farther away than what the number is rounded to. -/
theorem abs_units_nearest_sub_lt (hFinite : f.nearest num den < f.infinity) {u : Nat}
    (hShift : f.shift num den ≠ 0) (hBelow : u < f.binade * 2 ^ f.shift num den) :
    |(f.units (f.nearest num den) : ℚ) - num / den| < |(u : ℚ) - num / den| := by
  have hPlace : ((f.binade * 2 ^ f.shift num den : ℕ) : ℚ) ≤ num / den := by
    push_cast
    exact binade_le_of_shift hBits hd hShift
  have hLess : (u : ℚ) < (f.binade * 2 ^ f.shift num den : ℕ) := by exact_mod_cast hBelow
  calc
    _ ≤ |((f.binade * 2 ^ f.shift num den : ℕ) : ℚ) - num / den| := by
      rw [units_nearest hBits hd hFinite, abs_steps_sub, abs_steps_sub]
      exact mul_le_mul_of_nonneg_right
        (abs_roundDiv_sub_le_abs _ (Nat.mul_pos hd (Nat.two_pow_pos _)) _) (by positivity)
    _ < |(u : ℚ) - num / den| := by
      rw [abs_of_nonpos (by linarith), abs_of_nonpos (by linarith)]
      linarith

/-- No magnitude is nearer to a number than the one that it is rounded to. -/
theorem abs_units_nearest_sub_le_abs (hFinite : f.nearest num den < f.infinity) (code : Nat) :
    |(f.units (f.nearest num den) : ℚ) - num / den| ≤ |(f.units code : ℚ) - num / den| := by
  rcases f.units_aligned code (f.shift num den) with ⟨n, hSteps⟩ | ⟨hShift, hBelow⟩
  · rw [units_nearest hBits hd hFinite, hSteps, abs_steps_sub, abs_steps_sub]
    exact mul_le_mul_of_nonneg_right
      (abs_roundDiv_sub_le_abs _ (Nat.mul_pos hd (Nat.two_pow_pos _)) _) (by positivity)
  · exact le_of_lt (abs_units_nearest_sub_lt hBits hd hFinite hShift hBelow)

/-- If another magnitude is equally near, then the number was rounded to an even
significand. -/
theorem even_roundDiv_shift_of_tie (hFinite : f.nearest num den < f.infinity) {code : Nat}
    (hOther : f.units code ≠ f.units (f.nearest num den))
    (hTie : |(f.units code : ℚ) - num / den| = |(f.units (f.nearest num den) : ℚ) - num / den|) :
    Even (roundDiv num (den * 2 ^ f.shift num den)) := by
  have hDen := Nat.mul_pos hd (Nat.two_pow_pos (f.shift num den))
  rcases f.units_aligned code (f.shift num den) with ⟨n, hSteps⟩ | ⟨hShift, hBelow⟩
  · rw [units_nearest hBits hd hFinite, hSteps] at hOther hTie
    rw [abs_steps_sub, abs_steps_sub] at hTie
    refine even_roundDiv_of_tie num hDen (n := n) (fun hSame => hOther (by rw [hSame])) ?_
    exact mul_right_cancel₀ (by positivity) hTie
  · exact absurd hTie (ne_of_gt (abs_units_nearest_sub_lt hBits hd hFinite hShift hBelow))

end Magnitudes

/-! Rounding to infinity. -/

section Overflow

variable (hf : f.WellFormed) (hd : 0 < den)

include hf

/-- The largest shift of a finite magnitude is three less than the exponents there are. -/
theorem infinity_eq : f.infinity = (2 ^ f.exponentBits - 3 + 2) * f.binade := by
  obtain ⟨hHalf, hExponents⟩ := hf.half_exponents
  rw [infinity, show 2 ^ f.exponentBits - 3 + 2 = 2 ^ f.exponentBits - 1 by omega]

/-- The bound in units: the largest significand and half of its last bit, with the
largest shift. -/
theorem overflow_eq : f.overflow * 2 ^ f.scale =
    (2 * f.binade - 1 / 2) * 2 ^ (2 ^ f.exponentBits - 3) := by
  have hBits := hf.precision
  obtain ⟨hHalf, hExponents⟩ := hf.half_exponents
  have hLarge : f.bias + 1 + f.scale = f.precision + (2 ^ f.exponentBits - 3) := by
    unfold bias scale
    omega
  have hSmall : (f.bias - f.precision : ℤ) + f.scale = ((2 ^ f.exponentBits - 3 : ℕ) : ℤ) - 1 := by
    unfold bias scale
    omega
  calc
    f.overflow * 2 ^ f.scale =
        2 ^ (f.bias + 1 + f.scale) - 2 ^ ((f.bias - f.precision : ℤ) + f.scale) := by
      rw [overflow, sub_mul, ← pow_add, zpow_add₀ two_ne_zero, zpow_natCast]
    _ = 2 ^ f.precision * 2 ^ (2 ^ f.exponentBits - 3) - 2 ^ (2 ^ f.exponentBits - 3) / 2 := by
      rw [hLarge, hSmall, pow_add, zpow_sub_one₀ two_ne_zero, zpow_natCast, div_eq_mul_inv]
    _ = _ := by
      rw [two_pow_precision (by omega)]
      ring

include hd

/-- A number is rounded to a finite magnitude if and only if it is below the bound. In
the last binade the largest significand is odd, so the tie goes beyond it. -/
theorem nearest_lt_infinity_iff : f.nearest num den < f.infinity ↔
    (num : ℚ) / den < f.overflow * 2 ^ f.scale := by
  have hBits : 0 < f.precision := by
    have hPrecision := hf.precision
    omega
  have hPositive := f.binade_pos
  have hBinade : (1 : ℚ) ≤ f.binade := by exact_mod_cast hPositive
  have hInfinity := infinity_eq hf
  rw [overflow_eq hf]
  generalize 2 ^ f.exponentBits - 3 = last at hInfinity ⊢
  have hLast : (0 : ℚ) < 2 ^ last := by positivity
  rcases Nat.lt_trichotomy (f.shift num den) last with hLess | hSame | hMore
  · obtain ⟨k, rfl⟩ := Nat.exists_eq_add_one.mpr (Nat.zero_lt_of_lt hLess)
    have hBelow : (num : ℚ) / den < 2 * f.binade * 2 ^ k :=
      (shift_le_iff hBits hd).mp (Nat.le_of_lt_succ hLess)
    refine iff_of_true (nearest_lt_infinity hBits hd hBelow ?_) ?_
    · rw [hInfinity]
      exact Nat.mul_lt_mul_of_pos_right (by omega) hPositive
    · rw [pow_succ'] at hLast ⊢
      nlinarith
  · have hCode : f.nearest num den < f.infinity ↔
        roundDiv num (den * 2 ^ last) < 2 * f.binade := by
      rw [nearest_eq_shift, hSame, hInfinity, Nat.add_mul]
      omega
    rw [hCode, roundDiv_lt_iff_of_even num (Nat.mul_pos hd (Nat.two_pow_pos last))
      (even_two_mul _), ← div_lt_iff₀ hLast]
    push_cast
    rw [div_div]
  · have hFull : f.binade ≤ roundDiv num (den * 2 ^ f.shift num den) :=
      binade_le_roundDiv_shift hBits hd (by omega)
    have hPlaces : (last + 1) * f.binade ≤ f.shift num den * f.binade :=
      Nat.mul_le_mul_right _ hMore
    have hAbove : (f.binade : ℚ) * 2 ^ f.shift num den ≤ num / den :=
      binade_le_of_shift hBits hd (by omega)
    have hPower : (2 : ℚ) ^ (last + 1) ≤ 2 ^ f.shift num den :=
      pow_le_pow_right₀ (by norm_num) hMore
    refine iff_of_false ?_ ?_
    · rw [nearest_eq_shift, hInfinity]
      rw [Nat.add_mul] at hPlaces ⊢
      omega
    · rw [pow_succ] at hPower
      nlinarith

end Overflow

/-! Signs. -/

theorem abs_sign_mul (negative : Bool) {a : ℚ} (ha : 0 ≤ a) : |sign negative * a| = a := by
  cases negative <;> simp [sign, abs_of_nonneg ha]

theorem abs_sign_mul_sub (negative : Bool) (a b : ℚ) :
    |sign negative * a - sign negative * b| = |a - b| := by
  rw [← mul_sub, abs_mul]
  cases negative <;> simp [sign]

/-- Another sign does not bring two numbers closer together. -/
theorem abs_sub_le_abs_sign_sub (negative negative' : Bool) {a b : ℚ} (ha : 0 ≤ a) (hb : 0 ≤ b) :
    |a - b| ≤ |sign negative' * a - sign negative * b| := by
  have hReverse := abs_abs_sub_abs_le (sign negative' * a) (sign negative * b)
  rwa [abs_sign_mul negative' ha, abs_sign_mul negative hb] at hReverse

/-- With different signs, the distance is the sum. -/
theorem abs_sign_sub_of_ne {negative negative' : Bool} (h : negative' ≠ negative) {a b : ℚ}
    (ha : 0 ≤ a) (hb : 0 ≤ b) : |sign negative' * a - sign negative * b| = a + b := by
  rw [Bool.eq_not.mpr h]
  cases negative
  · simp only [sign, Bool.not_false, if_true, Bool.false_eq_true, if_false]
    rw [abs_of_nonpos (by linarith)]
    ring
  · simp only [sign, Bool.not_true, if_true, Bool.false_eq_true, if_false]
    rw [abs_of_nonneg (by linarith)]
    ring

section Nearest

variable (hf : f.WellFormed) (hd : 0 < den) (hFinite : f.nearest num den < f.infinity)

include hf hd hFinite

theorem even_nearest_of_tie {code : Nat} (hOther : f.units code ≠ f.units (f.nearest num den))
    (hTie : |(f.units code : ℚ) - num / den| = |(f.units (f.nearest num den) : ℚ) - num / den|) :
    Even (f.nearest num den) := by
  have hBits := hf.precision
  have hRounded := even_roundDiv_shift_of_tie (by omega) hd hFinite hOther hTie
  rw [nearest_eq_shift] at hFinite ⊢
  rw [Nat.min_eq_left (by omega)]
  exact hRounded.add (hf.even_binade.mul_left _)

/-- Rounding gives the nearest number of the format, among those of either sign. -/
theorem isNearest_nearest (negative : Bool) :
    f.IsNearest (sign negative * (num / den / 2 ^ f.scale)) negative (f.nearest num den) := by
  have hBits : 0 < f.precision := by
    have hPrecision := hf.precision
    omega
  have hUnit : (0 : ℚ) < 2 ^ f.scale := by positivity
  have hScaled (u : ℕ) : |(u : ℚ) / 2 ^ f.scale - num / den / 2 ^ f.scale| =
      |(u : ℚ) - num / den| / 2 ^ f.scale := by
    rw [← sub_div, abs_div, abs_of_pos hUnit]
  have hHere : |f.value negative (f.nearest num den) - sign negative * (num / den / 2 ^ f.scale)| =
      |(f.units (f.nearest num den) : ℚ) - num / den| / 2 ^ f.scale := by
    rw [value_eq hf, abs_sign_mul_sub, hScaled]
  have hThere (negative' : Bool) (code : ℕ) : |(f.units code : ℚ) - num / den| / 2 ^ f.scale ≤
      |f.value negative' code - sign negative * (num / den / 2 ^ f.scale)| := by
    rw [value_eq hf, ← hScaled]
    exact abs_sub_le_abs_sign_sub negative negative' (by positivity) (by positivity)
  have hLeast (code : ℕ) := abs_units_nearest_sub_le_abs hBits hd hFinite code
  refine ⟨hFinite, fun negative' code _ => ?_, fun negative' code _ hTie hOther => ?_⟩
  · rw [hHere]
    exact le_trans (div_le_div_of_nonneg_right (hLeast code) (le_of_lt hUnit)) (hThere _ _)
  · rw [even_significand hf]
    have hSame : |(f.units code : ℚ) - num / den| =
        |(f.units (f.nearest num den) : ℚ) - num / den| := by
      refine le_antisymm ?_ (hLeast code)
      have hUpper := hThere negative' code
      rw [hTie, hHere] at hUpper
      exact (div_le_div_iff_of_pos_right hUnit).mp hUpper
    refine even_nearest_of_tie hf hd hFinite (fun hUnits => hOther ?_) hSame
    -- The same magnitude with the other sign is equally near only if it is zero.
    by_cases hSign : negative' = negative
    · rw [hSign, value_eq hf, value_eq hf, hUnits]
    · have hZero : (f.units (f.nearest num den) : ℚ) = 0 := by
        have hOrigin := hLeast 0
        rw [hHere, value_eq hf, hUnits, abs_sign_sub_of_ne hSign (by positivity) (by positivity),
          ← add_div, div_left_inj' (ne_of_gt hUnit)] at hTie
        rw [← hTie, units_zero, Nat.cast_zero, zero_sub, abs_neg,
          abs_of_nonneg (by positivity)] at hOrigin
        exact le_antisymm (by linarith) (by positivity)
      rw [value_eq hf, value_eq hf, hUnits, hZero, zero_div, mul_zero, mul_zero]

end Nearest

end Format
end Reckoner
