import Reckoner.Proofs.Numeric
import Reckoner.Proofs.Ranks
import Mathlib.Tactic.NormNum
import Mathlib.Tactic.Positivity

/-! Rounding to a single is correct rounding. A finite double is rounded to the
nearest single, or to an infinity if it is too large; whatever is rounded keeps its
sign and its place in the order; and what was rounded is not changed again. -/
namespace Reckoner

attribute [local instance] naturalPower

theorem Format.nearest_le_infinity (f : Format) (num den : Nat) :
    f.nearest num den ≤ f.infinity := Nat.min_le_right _ _

/-- A larger code has more units, as long as it stands for a number. -/
theorem Format.units_mono {f : Format} (hBits : 0 < f.precision) {c c' : Nat}
    (hFinite : c' < f.infinity) (h : c ≤ c') : f.units c ≤ f.units c' := by
  rcases Nat.eq_or_lt_of_le h with rfl | hLess
  · exact Nat.le_refl _
  · exact Nat.le_of_lt (units_lt_units hBits hFinite hLess)

namespace Number

/-- The rational number that a finite double stands for. -/
def value (x : Float) : ℚ := Format.double.value (isNegative x) (code x)

/-- The value by sign and units. -/
theorem value_eq_units (x : Float) :
    value x = Format.sign (isNegative x) * (units x / 2 ^ Format.double.scale) :=
  Format.value_eq Format.wellFormed_double _ _

/-- The sign does not matter to the magnitude. -/
theorem abs_value (x : Float) : |value x| = units x / 2 ^ Format.double.scale := by
  rw [value_eq_units, Format.abs_sign_mul _ (by positivity)]

theorem singleUnit_pos : 0 < singleUnit := Nat.two_pow_pos _

/-- The unit of a single in units of a double. -/
theorem two_pow_scale :
    (2 : ℚ) ^ Format.double.scale = singleUnit * 2 ^ Format.single.scale := by
  have hScales : Format.double.scale =
      Format.double.scale - Format.single.scale + Format.single.scale := by decide
  rw [singleUnit, Nat.cast_pow, Nat.cast_ofNat, ← pow_add, ← hScales]

/-- A number of units of a double, in units of a single. -/
theorem div_two_pow_scale (u : ℚ) :
    u / 2 ^ Format.double.scale = u / singleUnit / 2 ^ Format.single.scale := by
  rw [two_pow_scale, div_div]

/-- Halfway between the largest single and the next power of two. -/
theorem overflow_single : Format.single.overflow = 2 ^ 128 - 2 ^ 103 := by
  rw [Format.overflow, show Format.single.bias = 127 by decide,
    show Format.single.precision = 24 from rfl]
  norm_num

/-- Where singles end. -/
theorem singleCode_lt_iff (x : Float) :
    singleCode x < Format.single.infinity ↔ |value x| < 2 ^ 128 - 2 ^ 103 := by
  have hScale : (0 : ℚ) < 2 ^ Format.single.scale := by positivity
  rw [singleCode, Format.nearest_lt_infinity_iff Format.wellFormed_single singleUnit_pos,
    abs_value, div_two_pow_scale, div_lt_iff₀ hScale, overflow_single]

section Finite

variable {x : Float} (hFinite : isFinite x = true)

include hFinite

/-- Below the bound the result is the nearest single, written as a double. -/
theorem toSingle_of_lt (hCode : singleCode x < Format.single.infinity) : toSingle x =
    ofUnits (isNegative x) (Format.single.units (singleCode x) * singleUnit) 1 := by
  rw [toSingle, if_pos hFinite, if_pos hCode]

/-- From the bound on it is the infinity of the same sign. -/
theorem toSingle_of_not_lt (hCode : ¬ singleCode x < Format.single.infinity) :
    toSingle x = infinity (isNegative x) := by
  rw [toSingle, if_pos hFinite, if_neg hCode]

/-- The double that a number is rounded to stands for the nearest single. -/
theorem value_toSingle (hCode : singleCode x < Format.single.infinity) :
    isFinite (toSingle x) = true ∧
      value (toSingle x) = Format.single.value (isNegative x) (singleCode x) := by
  have hUnit : (singleUnit : ℚ) ≠ 0 := by exact_mod_cast Nat.ne_of_gt singleUnit_pos
  obtain ⟨hFinite', hSign, hUnits, -⟩ := ofUnits_single (isNegative x) hCode
  rw [toSingle_of_lt hFinite hCode]
  refine ⟨hFinite', ?_⟩
  rw [value_eq_units, hSign, hUnits, div_two_pow_scale, Nat.cast_mul, mul_div_cancel_right₀ _ hUnit,
    Format.value_eq Format.wellFormed_single]

end Finite

/-- The code that rounding finds is nearest to the value, since the two formats
differ in their unit only. -/
theorem isNearest_singleCode {x : Float} (hCode : singleCode x < Format.single.infinity) :
    Format.single.IsNearest (value x) (isNegative x) (singleCode x) := by
  rw [value_eq_units, div_two_pow_scale]
  exact Format.isNearest_nearest Format.wellFormed_single singleUnit_pos hCode _

/-- The sign is kept, that of zeros and infinities included. -/
theorem isNegative_toSingle (x : Float) : isNegative (toSingle x) = isNegative x := by
  cases hFinite : isFinite x with
  | false => rw [toSingle_of_not_finite hFinite]
  | true =>
      by_cases hCode : singleCode x < Format.single.infinity
      · obtain ⟨-, hSign, -⟩ := ofUnits_single (isNegative x) hCode
        rw [toSingle_of_lt hFinite hCode, hSign]
      · rw [toSingle_of_not_lt hFinite hCode, infinity, isNegative_ofCode _ (Nat.le_refl _)]

/-- The code that a code becomes by rounding to a single. -/
def narrowed (c : Nat) : Nat :=
  if c < Format.double.infinity then
    if Format.single.nearest (Format.double.units c) singleUnit < Format.single.infinity then
      Format.double.nearest (Format.single.units
        (Format.single.nearest (Format.double.units c) singleUnit) * singleUnit) 1
    else Format.double.infinity
  else c

/-- Rounding acts on codes, apart from the sign. -/
theorem code_toSingle (x : Float) : code (toSingle x) = narrowed (code x) := by
  cases hFinite : isFinite x with
  | false => rw [toSingle_of_not_finite hFinite, narrowed, if_neg (of_decide_eq_false hFinite)]
  | true =>
      rw [narrowed, if_pos (of_decide_eq_true hFinite)]
      by_cases hCode : singleCode x < Format.single.infinity
      · rw [toSingle_of_lt hFinite hCode, ofUnits,
          code_ofCode _ (Format.nearest_le_infinity _ _ _)]
        exact (if_pos hCode).symm
      · rw [toSingle_of_not_lt hFinite hCode, infinity, code_ofCode _ (Nat.le_refl _)]
        exact (if_neg hCode).symm

theorem narrowed_zero : narrowed 0 = 0 := by
  have hNone (f : Format) (hBits : 0 < f.precision) (hSome : 0 < f.infinity) {d : Nat}
      (hd : 0 < d) : f.nearest 0 d = 0 := by
    have hNearest := f.nearest_units hBits hSome hd
    rwa [f.units_zero, Nat.zero_mul] at hNearest
  rw [narrowed, if_pos (by decide), Format.units_zero,
    hNone _ (by decide) (by decide) singleUnit_pos, if_pos (by decide), Format.units_zero,
    Nat.zero_mul, hNone _ (by decide) (by decide) Nat.one_pos]

/-- On codes it keeps the order: there is one case below both bounds, and from
either bound on the larger code is an infinity. -/
theorem narrowed_mono {c c' : Nat} (hNumber : c' ≤ Format.double.infinity) (h : c ≤ c') :
    narrowed c ≤ narrowed c' := by
  have hLe : narrowed c ≤ Format.double.infinity := by
    unfold narrowed
    split
    · split
      · exact Format.nearest_le_infinity _ _ _
      · exact Nat.le_refl _
    · omega
  rcases Nat.eq_or_lt_of_le hNumber with rfl | hFinite
  · rwa [narrowed.eq_1 Format.double.infinity, if_neg (Nat.lt_irrefl _)]
  · have hCodes : Format.single.nearest (Format.double.units c) singleUnit ≤
        Format.single.nearest (Format.double.units c') singleUnit :=
      Format.nearest_mono (by decide) singleUnit_pos
        (Format.units_mono (by decide) hFinite h)
    by_cases hCode : Format.single.nearest (Format.double.units c') singleUnit <
        Format.single.infinity
    · rw [narrowed, if_pos (by omega), if_pos (by omega), narrowed, if_pos hFinite, if_pos hCode]
      exact Format.nearest_mono (by decide) Nat.one_pos
        (Nat.mul_le_mul_right _ (Format.units_mono (by decide) hCode hCodes))
    · rwa [narrowed.eq_1 c', if_pos hFinite, if_neg hCode]

theorem code_le_of_number {x : Float} (hNumber : isNaN x = false) :
    code x ≤ Format.double.infinity := Nat.not_lt.mp (of_decide_eq_false hNumber)

/-- Rounding keeps the order of numbers. -/
theorem toSingle_mono {x y : Float} (h : x ≤ y) : toSingle x ≤ toSingle y := by
  obtain ⟨hx, hy, hRank⟩ := le_iff_rank.mp h
  refine le_iff_rank.mpr ⟨isNaN_toSingle hx, isNaN_toSingle hy, ?_⟩
  unfold rank at hRank ⊢
  rw [isNegative_toSingle, isNegative_toSingle, code_toSingle, code_toSingle]
  cases hX : isNegative x <;> cases hY : isNegative y <;>
    simp only [hX, hY, Bool.false_eq_true, if_false, if_true] at hRank ⊢
  · have hCodes := narrowed_mono (code_le_of_number hy) (show code x ≤ code y by omega)
    omega
  · -- Only a zero stands before a zero with a sign.
    rw [show code x = 0 by omega, show code y = 0 by omega, narrowed_zero]
    omega
  · omega
  · have hCodes := narrowed_mono (code_le_of_number hx) (show code y ≤ code x by omega)
    omega

end Number

open Number

/-- Rounding to a single, for every double. Below the bound, a finite one is rounded to
a double that stands for the nearest single, ties going to the even significand; from
the bound on, to the infinity of its sign. Infinities, and what is not a number, stay
as they are. -/
theorem toSingle_correctly_rounded (x : Float) :
    (isFinite x = true → |value x| < 2 ^ 128 - 2 ^ 103 →
      isFinite (toSingle x) = true ∧
      ∃ code, Format.single.IsNearest (value x) (isNegative x) code ∧
        value (toSingle x) = Format.single.value (isNegative x) code) ∧
    (isFinite x = true → 2 ^ 128 - 2 ^ 103 ≤ |value x| → toSingle x = infinity (isNegative x)) ∧
    (isFinite x = false → toSingle x = x) ∧
    isNegative (toSingle x) = isNegative x ∧
    toSingle (toSingle x) = toSingle x ∧
    ∀ y, x ≤ y → toSingle x ≤ toSingle y := by
  refine ⟨fun hFinite hSmall => ?_, fun hFinite hLarge => ?_, toSingle_of_not_finite,
    isNegative_toSingle x, toSingle_toSingle x, fun y => toSingle_mono⟩
  · have hCode := (singleCode_lt_iff x).mpr hSmall
    obtain ⟨hFinite', hValue⟩ := value_toSingle hFinite hCode
    exact ⟨hFinite', singleCode x, isNearest_singleCode hCode, hValue⟩
  · apply toSingle_of_not_lt hFinite
    rw [singleCode_lt_iff]
    exact not_lt.mpr hLarge

/-- In the middle between two singles. -/
def halfway : Float := 16777217

/-- The least double that is rounded to an infinity. -/
def leastOverflow : Float := 3.4028235677973366e38

theorem value_halfway : value halfway = 16777217 := by
  have hSign : isNegative halfway = false := by decide +kernel
  have hCode : code halfway = 4715268810125344768 := by decide +kernel
  rw [value, hSign, hCode, Format.value,
    show Format.double.significand 4715268810125344768 = 4503599895805952 by decide,
    show Format.double.lastExponent 4715268810125344768 = -28 by decide]
  norm_num [Format.sign]

theorem value_leastOverflow : value leastOverflow = 2 ^ 128 - 2 ^ 103 := by
  have hSign : isNegative leastOverflow = false := by decide +kernel
  have hCode : code leastOverflow = 5183643170835005440 := by decide +kernel
  rw [value, hSign, hCode, Format.value,
    show Format.double.significand 5183643170835005440 = 9007198986305536 by decide,
    show Format.double.lastExponent 5183643170835005440 = 75 by decide]
  norm_num [Format.sign]

theorem toSingle_correctly_rounded_ties :
    isFinite halfway = true ∧ isFinite leastOverflow = true ∧ toSingle halfway = 16777216 ∧
    (∃ code, Format.single.IsNearest 16777217 false code ∧
      value (toSingle halfway) = Format.single.value false code) ∧
    toSingle leastOverflow = infinity false ∧ toSingle halfway ≤ toSingle leastOverflow := by
  have hFinite : isFinite halfway = true := by decide +kernel
  have hFinite' : isFinite leastOverflow = true := by decide +kernel
  have hSign : isNegative halfway = false := by decide +kernel
  have hSign' : isNegative leastOverflow = false := by decide +kernel
  obtain ⟨hNearest, -, -, -, -, hMono⟩ := toSingle_correctly_rounded halfway
  obtain ⟨-, hInfinite, -⟩ := toSingle_correctly_rounded leastOverflow
  rw [value_halfway, hSign] at hNearest
  rw [value_leastOverflow, hSign'] at hInfinite
  exact ⟨hFinite, hFinite', by decide +kernel, (hNearest hFinite (by norm_num)).2,
    hInfinite hFinite' (by norm_num), hMono _ (by decide +kernel)⟩

end Reckoner
