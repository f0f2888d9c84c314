import Mathlib
import Reckoner.Proofs.Representable

/-! Singles among the doubles. A double is given by its sign and the code of its
magnitude, as long as it is a number; and what was rounded to a single once is
not changed by rounding it again. -/
namespace Reckoner.Number

attribute [local instance] naturalPower

open Float.Model UnpackedFloat in
/-- Only what is not a number has more than one pattern of bits. -/
theorem toBits_ofBits {w : UInt64} (h : w.toNat % 2 ^ (63 : Nat) ≤ Format.double.infinity) :
    (Float.ofBits w).toBits = w := by
  have hInfinity : Format.double.infinity = 2047 * 2 ^ (52 : Nat) := rfl
  have hNumber : @isNaNBits .binary64 w.toBitVec = false := by
    rw [isNaNBits, decide_eq_false_iff_not]
    rintro ⟨hExponent, hMantissa⟩
    apply hMantissa
    apply BitVec.eq_of_toNat_eq
    have hField := congrArg BitVec.toNat hExponent
    rw [unpackExponent_def] at hField
    rw [unpackMantissa_def]
    simp [Nat.shiftRight_eq_div_pow] at hField ⊢
    omega
  apply UInt64.toBitVec_inj.mp
  refine (@pack_unpack .binary64 w.toBitVec (by decide)).trans ?_
  rw [hNumber]
  rfl

section Codes

variable (negative : Bool) {c : Nat} (hCode : c ≤ Format.double.infinity)

include hCode

theorem toBits_ofCode :
    (ofCode negative c).toBits.toNat = if negative then 2 ^ (63 : Nat) + c else c := by
  have hInfinity : Format.double.infinity = 2047 * 2 ^ (52 : Nat) := rfl
  have hWord : (UInt64.ofNat (if negative then 2 ^ (63 : Nat) + c else c)).toNat =
      if negative then 2 ^ (63 : Nat) + c else c := by
    rw [UInt64.toNat_ofNat']
    apply Nat.mod_eq_of_lt
    split <;> omega
  rw [ofCode, toBits_ofBits, hWord]
  rw [hWord]
  split <;> omega

/-- A code is read back from the double that was made of it. -/
theorem code_ofCode : code (ofCode negative c) = c := by
  have hInfinity : Format.double.infinity = 2047 * 2 ^ (52 : Nat) := rfl
  rw [code, toBits_ofCode negative hCode]
  split <;> omega

/-- The sign is read back from a double that was made of a sign and a code. -/
theorem isNegative_ofCode : isNegative (ofCode negative c) = negative := by
  have hInfinity : Format.double.infinity = 2047 * 2 ^ (52 : Nat) := rfl
  rw [isNegative, toBits_ofCode negative hCode]
  cases negative
  · simp only [Bool.false_eq_true, if_false, decide_eq_false_iff_not]
    omega
  · simp

end Codes

/-- A double is given by its sign and its code. -/
theorem ofCode_code (x : Float) : ofCode (isNegative x) (code x) = x := by
  have hBits : (if isNegative x then 2 ^ (63 : Nat) + code x else code x) = x.toBits.toNat := by
    have hWidth := x.toBits.toNat_lt
    simp only [isNegative, code, decide_eq_true_eq]
    split <;> omega
  rw [ofCode, hBits, UInt64.ofNat_toNat, Float.ofBits_toBits]

/-- A magnitude of a double is read back as itself. -/
theorem ofUnits_units (negative : Bool) {c : Nat} (hCode : c < Format.double.infinity) :
    ofUnits negative (Format.double.units c) 1 = ofCode negative c := by
  have hNearest := Format.nearest_units Format.double (by decide) hCode Nat.one_pos
  rw [Nat.mul_one] at hNearest
  rw [ofUnits, hNearest]

/-- What is a magnitude of a double is kept as it is. -/
theorem ofUnits_exact (negative : Bool) {c u : Nat} (hCode : c < Format.double.infinity)
    (hUnits : Format.double.units c = u) :
    isFinite (ofUnits negative u 1) = true ∧ isNegative (ofUnits negative u 1) = negative ∧
      units (ofUnits negative u 1) = u := by
  have hLe := Nat.le_of_lt hCode
  rw [← hUnits, ofUnits_units negative hCode, isFinite, units, code_ofCode negative hLe]
  exact ⟨decide_eq_true hCode, isNegative_ofCode negative hLe, rfl⟩

/-- Every magnitude of a single is one of a double. -/
theorem exists_double_units {c : Nat} (hCode : c < Format.single.infinity) :
    ∃ k < Format.double.infinity,
      Format.double.units k = Format.single.units c * singleUnit := by
  obtain ⟨a, s, hFits, rfl⟩ := Format.single.exists_fits c
  obtain ⟨b, r, hWide, hMagnitude, hFinite⟩ := hFits.widen hCode
  exact ⟨_, hFinite, by rw [hWide.units_eq, hMagnitude, hFits.units_eq]⟩

/-- The double that stands for a single is finite, keeps the sign and the
magnitude, and is rounded to the same single. -/
theorem ofUnits_single (negative : Bool) {c : Nat} (hCode : c < Format.single.infinity) :
    let x := ofUnits negative (Format.single.units c * singleUnit) 1
    isFinite x = true ∧ isNegative x = negative ∧
      units x = Format.single.units c * singleUnit ∧ singleCode x = c := by
  intro x
  obtain ⟨k, hFinite, hUnits⟩ := exists_double_units hCode
  obtain ⟨hx, hSign, hMagnitude⟩ := ofUnits_exact negative hFinite hUnits
  refine ⟨hx, hSign, hMagnitude, ?_⟩
  rw [singleCode, hMagnitude]
  exact Format.nearest_units _ (by decide) hCode (Nat.two_pow_pos _)

theorem isFinite_infinity (negative : Bool) : isFinite (infinity negative) = false := by
  rw [isFinite, infinity, code_ofCode negative (Nat.le_refl _)]
  exact decide_eq_false (Nat.lt_irrefl _)

/-- Infinities stay, and so does what is not a number. -/
theorem toSingle_of_not_finite {x : Float} (h : isFinite x = false) : toSingle x = x := by
  rw [toSingle, if_neg (Bool.eq_false_iff.mp h)]

/-- What was rounded to a single is a single. -/
theorem toSingle_toSingle (x : Float) : toSingle (toSingle x) = toSingle x := by
  cases hFinite : isFinite x with
  | false => rw [toSingle_of_not_finite hFinite, toSingle_of_not_finite hFinite]
  | true =>
      by_cases hCode : singleCode x < Format.single.infinity
      · have hOnce : toSingle x =
            ofUnits (isNegative x) (Format.single.units (singleCode x) * singleUnit) 1 := by
          rw [toSingle, if_pos hFinite, if_pos hCode]
        obtain ⟨hFinite', hSign, -, hSame⟩ := ofUnits_single (isNegative x) hCode
        rw [hOnce, toSingle, if_pos hFinite', hSame, if_pos hCode, hSign]
      · have hOnce : toSingle x = infinity (isNegative x) := by
          rw [toSingle, if_pos hFinite, if_neg hCode]
        rw [hOnce, toSingle_of_not_finite (isFinite_infinity _)]

theorem toSingle_nan : toSingle Float.nan = Float.nan :=
  toSingle_of_not_finite (by decide +kernel)

end Reckoner.Number
