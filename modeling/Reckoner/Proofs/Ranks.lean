import Reckoner.Proofs.Nearest
import Reckoner.Proofs.Singles

/-! The order of doubles. A double is compared by what it is taken apart into: its
sign, its significand and its exponent. These are the fields of its code, and so the
doubles are in the order of their codes, those with a sign before the others and
backwards. -/
namespace Reckoner.Number

attribute [local instance] naturalPower

open Float.Model UnpackedFloat

/-! The fields of a double, as they are taken apart and as its code has them. -/

section Fields

variable (x : Float)

/-- The sign of a double as it is taken apart. -/
def signOf : Sign := if isNegative x then .negative else .positive

theorem code_lt : code x < 2 ^ (63 : Nat) := Nat.mod_lt _ (Nat.two_pow_pos 63)

/-- The significand is stored in the lower bits of the code. -/
theorem toNat_unpackMantissa :
    (@unpackMantissa .binary64 x.toBits.toBitVec).toNat = code x % 2 ^ (52 : Nat) := by
  have hField : (@unpackMantissa .binary64 x.toBits.toBitVec).toNat =
      x.toBits.toNat % 2 ^ (52 : Nat) := by
    rw [unpackMantissa_def]
    simp
  rw [hField, code]
  omega

/-- The exponent is stored above the significand. -/
theorem toNat_unpackExponent :
    (@unpackExponent .binary64 x.toBits.toBitVec).toNat = code x / 2 ^ (52 : Nat) := by
  have hWidth := x.toBits.toNat_lt
  have hField : (@unpackExponent .binary64 x.toBits.toBitVec).toNat =
      x.toBits.toNat / 2 ^ (52 : Nat) % 2 ^ (11 : Nat) := by
    rw [unpackExponent_def]
    simp [Nat.shiftRight_eq_div_pow]
  rw [hField, code]
  omega

/-- The sign is the one bit that is no part of the code. -/
theorem ofBitVec_unpackSign :
    Sign.ofBitVec (@unpackSign .binary64 x.toBits.toBitVec) = signOf x := by
  have hWidth := x.toBits.toNat_lt
  have hField : (@unpackSign .binary64 x.toBits.toBitVec).toNat =
      x.toBits.toNat / 2 ^ (63 : Nat) := by
    rw [unpackSign_def]
    simp [Nat.shiftRight_eq_div_pow]
    omega
  have hClear : @unpackSign .binary64 x.toBits.toBitVec = 0#1 ↔
      ¬ 2 ^ (63 : Nat) ≤ x.toBits.toNat := by
    rw [← BitVec.toNat_inj, hField, BitVec.toNat_ofNat]
    omega
  simp only [Sign.ofBitVec, hClear, signOf, isNegative, decide_eq_true_eq, ite_not]

/-- All bits of the exponent are set in what is not finite. -/
theorem unpackExponent_eq_ones : @unpackExponent .binary64 x.toBits.toBitVec = -1#_ ↔
    Format.double.infinity ≤ code x := by
  have hCode := code_lt x
  rw [← BitVec.toNat_inj, toNat_unpackExponent, show Format.double.infinity = 2047 * 2 ^ (52 : Nat)
    from rfl]
  simp
  omega

theorem unpackExponent_eq_zero : @unpackExponent .binary64 x.toBits.toBitVec = 0#_ ↔
    code x / 2 ^ (52 : Nat) = 0 := by
  rw [← BitVec.toNat_inj, toNat_unpackExponent, BitVec.toNat_ofNat]
  rfl

theorem unpackMantissa_eq_zero : @unpackMantissa .binary64 x.toBits.toBitVec = 0#_ ↔
    code x % 2 ^ (52 : Nat) = 0 := by
  rw [← BitVec.toNat_inj, toNat_unpackMantissa, BitVec.toNat_ofNat]
  rfl

/-- The exponent of the last place. Codes without an exponent share that of the
first ones with one. -/
theorem lastExponent_double (c : Nat) : Format.double.lastExponent c =
    (max (c / 2 ^ (52 : Nat)) 1 : ℕ) - (1023 + 52) := by
  rw [Format.lastExponent, show Format.double.bias = 1023 by decide,
    show Format.double.precision = 53 from rfl, show Format.double.binade = 2 ^ (52 : Nat) from rfl]
  omega

end Fields

/-- What a double is taken apart into, by its code. -/
inductive Unpacks (x : Float) : UnpackedFloat → Prop where
  | notANumber (hNaN : isNaN x = true) : Unpacks x .notANumber
  | infinity (hCode : code x = Format.double.infinity) : Unpacks x (.infinity (signOf x))
  | zero (hCode : code x = 0) : Unpacks x (.zero (signOf x))
  | finite (hFinite : isFinite x = true) (hPositive : 0 < Format.double.significand (code x)) :
      Unpacks x (.finite (signOf x) (Format.double.significand (code x))
        (Format.double.lastExponent (code x)) hPositive)

/-- The finite case, with the fields given up to equality. -/
theorem Unpacks.of_fields {x : Float} {m : Nat} {e : ℤ} (hFinite : isFinite x = true)
    (hm : m = Format.double.significand (code x)) (he : e = Format.double.lastExponent (code x))
    (hPositive : 0 < m) : Unpacks x (.finite (signOf x) m e hPositive) := by
  subst hm he
  exact .finite hFinite hPositive

/-- Every double is taken apart in one of these ways, by what its fields are. -/
theorem unpacks (x : Float) : Unpacks x x.toModel.unpack := by
  have hBinade : Format.double.binade = 2 ^ (52 : Nat) := rfl
  have hInfinity : Format.double.infinity = 2047 * 2 ^ (52 : Nat) := rfl
  have hCode := code_lt x
  have hBias : ((Format.exponentBias .binary64 : ℕ) : ℤ) = 1023 := by decide
  change Unpacks x (UnpackedFloat.unpack .binary64 x.toBits.toBitVec)
  unfold UnpackedFloat.unpack
  dsimp only
  rw [ofBitVec_unpackSign, hBias]
  split
  · next hOnes =>
      rw [unpackExponent_eq_ones] at hOnes
      split
      · next hZero =>
          rw [unpackMantissa_eq_zero] at hZero
          exact .infinity (by omega)
      · next hSome =>
          rw [unpackMantissa_eq_zero] at hSome
          exact .notANumber (decide_eq_true (by omega))
  · next hFinite =>
      rw [unpackExponent_eq_ones, not_le] at hFinite
      have hFinite : isFinite x = true := decide_eq_true hFinite
      split
      · next hNone =>
          rw [unpackExponent_eq_zero] at hNone
          split
          · next hZero =>
              rw [unpackMantissa_eq_zero] at hZero
              exact .zero (by omega)
          -- No exponent, but some significand: the numbers that are too small for a leading one.
          · refine .of_fields hFinite ?_ ?_ _
            · rw [toNat_unpackMantissa, Format.significand, hBinade, if_pos hNone]
            · rw [toNat_unpackExponent, lastExponent_double, hNone]
              rfl
      · next hSome =>
          rw [unpackExponent_eq_zero] at hSome
          refine .of_fields hFinite ?_ ?_ _
          · rw [BitVec.toNat_append, toNat_unpackMantissa, Format.significand, hBinade,
              if_neg hSome]
            exact (Nat.two_pow_add_eq_or_of_lt (Nat.mod_lt _ (Nat.two_pow_pos 52)) 1).symm
          · rw [toNat_unpackExponent, lastExponent_double, Nat.max_eq_left (by omega)]
            rfl

/-! The order. -/

/-- The place of a double in the order of doubles. The two zeros have the same one. -/
def rank (x : Float) : ℤ := if isNegative x then -code x else code x

/-- The fields of a code decide in the order in which they stand in it. -/
theorem compare_fields (c c' : Nat) :
    (compare (Format.double.lastExponent c) (Format.double.lastExponent c')).then
      (compare (Format.double.significand c) (Format.double.significand c')) = compare c c' := by
  have hLess {c c' : Nat} (h : c < c') :
      Format.double.lastExponent c < Format.double.lastExponent c' ∨
        Format.double.lastExponent c = Format.double.lastExponent c' ∧
          Format.double.significand c < Format.double.significand c' := by
    simp only [lastExponent_double, Format.significand,
      show Format.double.binade = 2 ^ (52 : Nat) from rfl]
    split <;> split <;> omega
  rcases Nat.lt_trichotomy c c' with h | rfl | h
  · rw [compare_lt_iff_lt.mpr h]
    rcases hLess h with hExponent | ⟨hExponent, hSignificand⟩
    · rw [compare_lt_iff_lt.mpr hExponent]
      rfl
    · rw [compare_eq_iff_eq.mpr hExponent, compare_lt_iff_lt.mpr hSignificand]
      rfl
  · rw [compare_eq_iff_eq.mpr rfl, compare_eq_iff_eq.mpr rfl, compare_eq_iff_eq.mpr rfl]
    rfl
  · rw [compare_gt_iff_gt.mpr h]
    rcases hLess h with hExponent | ⟨hExponent, hSignificand⟩
    · rw [compare_gt_iff_gt.mpr hExponent]
      rfl
    · rw [compare_eq_iff_eq.mpr hExponent.symm, compare_gt_iff_gt.mpr hSignificand]
      rfl

theorem code_pos_of_significand {c : Nat} (h : 0 < Format.double.significand c) : 0 < c := by
  refine Nat.pos_of_ne_zero fun hZero => ?_
  rw [hZero] at h
  exact absurd h (by decide)

section Cases

attribute [local simp] UnpackedFloat.le UnpackedFloat.compare signOf rank

variable {x y : Float} {v : UnpackedFloat} (hy : Unpacks y v) (hyNumber : isNaN y = false)

include hy hyNumber

/-- An infinity against anything: it is first or last, by its sign. -/
theorem infinity_le_iff (hx : code x = Format.double.infinity) :
    (UnpackedFloat.infinity (signOf x)).le v = true ↔ rank x ≤ rank y := by
  have hInfinity : 0 < Format.double.infinity := by decide
  have hSigns : compare Sign.negative .negative = .eq ∧ compare Sign.negative .positive = .lt ∧
      compare Sign.positive .negative = .gt ∧ compare Sign.positive .positive = .eq :=
    ⟨rfl, rfl, rfl, rfl⟩
  cases hy with
  | notANumber hNaN => simp [hNaN] at hyNumber
  | infinity hy =>
      cases hX : isNegative x <;> cases hY : isNegative y <;>
        simp [hX, hY, hx, hy, hSigns]
      omega
  | zero hy =>
      cases hX : isNegative x <;> cases hY : isNegative y <;> simp [hX, hY, hx, hy] <;> omega
  | finite hy _ =>
      have hBelow : code y < Format.double.infinity := of_decide_eq_true hy
      cases hX : isNegative x <;> cases hY : isNegative y <;> simp [hX, hY, hx] <;> omega

/-- A zero against anything, where the two zeros have the same place. -/
theorem zero_le_iff (hx : code x = 0) :
    (UnpackedFloat.zero (signOf x)).le v = true ↔ rank x ≤ rank y := by
  have hInfinity : 0 < Format.double.infinity := by decide
  cases hy with
  | notANumber hNaN => simp [hNaN] at hyNumber
  | infinity hy =>
      cases hX : isNegative x <;> cases hY : isNegative y <;> simp [hX, hY, hx, hy] <;> omega
  | zero hy => cases hX : isNegative x <;> cases hY : isNegative y <;> simp [hX, hY, hx, hy]
  | finite _ hSome =>
      have hAbove := code_pos_of_significand hSome
      cases hX : isNegative x <;> cases hY : isNegative y <;> simp [hX, hY, hx] <;> omega

/-- A number that is neither, against anything. Numbers of one sign are told by
their fields, with the order turned round below zero. -/
theorem finite_le_iff (hx : isFinite x = true)
    (hPositive : 0 < Format.double.significand (code x)) :
    (UnpackedFloat.finite (signOf x) (Format.double.significand (code x))
      (Format.double.lastExponent (code x)) hPositive).le v = true ↔ rank x ≤ rank y := by
  have hBelow : code x < Format.double.infinity := of_decide_eq_true hx
  have hAbove := code_pos_of_significand hPositive
  cases hy with
  | notANumber hNaN => simp [hNaN] at hyNumber
  | infinity hy =>
      cases hX : isNegative x <;> cases hY : isNegative y <;> simp [hX, hY, hy] <;> omega
  | zero hy =>
      cases hX : isNegative x <;> cases hY : isNegative y <;> simp [hX, hY, hy] <;> omega
  | finite _ hSome =>
      have hAbove' := code_pos_of_significand hSome
      cases hX : isNegative x <;> cases hY : isNegative y <;>
        simp [hX, hY, compare_fields, Nat.isLE_compare, Nat.isGE_compare]
      omega

end Cases

/-- One case for each way to take the first of them apart. -/
theorem Unpacks.le_iff {x y : Float} {u v : UnpackedFloat} (hx : Unpacks x u) (hy : Unpacks y v)
    (hxNumber : isNaN x = false) (hyNumber : isNaN y = false) :
    u.le v = true ↔ rank x ≤ rank y := by
  cases hx with
  | notANumber hNaN => simp [hNaN] at hxNumber
  | infinity hCode => exact infinity_le_iff hy hyNumber hCode
  | zero hCode => exact zero_le_iff hy hyNumber hCode
  | finite hFinite hPositive => exact finite_le_iff hy hyNumber hFinite hPositive

/-- What is not a number is told by its code. -/
theorem Unpacks.eq_notANumber {x : Float} {u : UnpackedFloat} (hx : Unpacks x u)
    (hNaN : isNaN x = true) : u = .notANumber := by
  have hBeyond : Format.double.infinity < code x := of_decide_eq_true hNaN
  cases hx with
  | notANumber => rfl
  | infinity hCode => omega
  | zero hCode => omega
  | finite hFinite =>
      have hBelow : code x < Format.double.infinity := of_decide_eq_true hFinite
      omega

/-- Numbers are in the order of their ranks, and what is not a number has no place in
the order. -/
theorem le_iff_rank {x y : Float} :
    x ≤ y ↔ isNaN x = false ∧ isNaN y = false ∧ rank x ≤ rank y := by
  have hLe : x ≤ y ↔ x.toModel.unpack.le y.toModel.unpack = true := by
    change decide (x.toModel ≤ y.toModel) = true ↔ _
    rw [decide_eq_true_iff]
    rfl
  rw [hLe]
  cases hx : isNaN x with
  | true =>
      rw [(unpacks x).eq_notANumber hx]
      simp [UnpackedFloat.le, UnpackedFloat.compare]
  | false =>
      cases hy : isNaN y with
      | true =>
          rw [(unpacks y).eq_notANumber hy]
          cases x.toModel.unpack <;> simp [UnpackedFloat.le, UnpackedFloat.compare]
      | false => simp [(unpacks x).le_iff (unpacks y) hx hy]

end Reckoner.Number
