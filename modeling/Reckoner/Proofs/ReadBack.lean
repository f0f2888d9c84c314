import Reckoner.Proofs.Numerals
import Reckoner.Proofs.Singles
import Mathlib.Tactic.Linarith
import Mathlib.Tactic.NormNum
import Mathlib.Tactic.Positivity

/-! What is shown can be read back. Nine significant digits are as near to a single
as it takes: reading them gives a double that differs from the single by less than
half of its last bit, in spite of the second rounding. So the search for the fewest
digits always ends, and the text that is shown stands for the number. -/
namespace Reckoner

attribute [local instance] naturalPower

/-- No finite magnitude is larger than this. -/
theorem Format.units_lt {f : Format} {code : Nat} (hCode : code < f.infinity) :
    f.units code < 2 * f.binade * 2 ^ 2 ^ f.exponentBits := by
  obtain ⟨a, s, hFits, rfl⟩ := f.exists_fits code
  have hBinades : s * f.binade < (2 ^ f.exponentBits - 1) * f.binade :=
    Nat.lt_of_le_of_lt (Nat.le_add_left _ a) hCode
  have hShift : s < 2 ^ f.exponentBits - 1 := Nat.lt_of_mul_lt_mul_right hBinades
  rw [hFits.units_eq]
  calc
    a * 2 ^ s < 2 * f.binade * 2 ^ s := Nat.mul_lt_mul_of_pos_right hFits.narrow (Nat.two_pow_pos s)
    _ ≤ 2 * f.binade * 2 ^ 2 ^ f.exponentBits :=
      Nat.mul_le_mul_left _ (Nat.pow_le_pow_right (by norm_num) (by omega))

namespace Number

section Single

variable {x : Float} (hFinite : isFinite x = true) (hSingle : toSingle x = x)

include hFinite hSingle

/-- A finite single is what its code as a single stands for. -/
theorem single_eq : singleCode x < Format.single.infinity ∧
    units x = Format.single.units (singleCode x) * singleUnit ∧
    ofUnits (isNegative x) (Format.single.units (singleCode x) * singleUnit) 1 = x := by
  by_cases hCode : singleCode x < Format.single.infinity
  · have hx := hSingle
    rw [toSingle, if_pos hFinite, if_pos hCode] at hx
    obtain ⟨-, -, hUnits, -⟩ := ofUnits_single (isNegative x) hCode
    rw [hx] at hUnits
    exact ⟨hCode, hUnits, hx⟩
  · rw [toSingle, if_pos hFinite, if_neg hCode] at hSingle
    rw [← hSingle, isFinite_infinity] at hFinite
    cases hFinite

/-- A double that is near enough to a single is rounded to it. -/
theorem toSingle_of_close {y : Float} (hy : isFinite y = true)
    (hSign : isNegative y = isNegative x)
    (hClose : |(units x : ℚ) - units y| * 2 ^ 25 < units x) : toSingle y = x := by
  obtain ⟨hCode, hUnits, hx⟩ := single_eq hFinite hSingle
  have hUnit : (0 : ℚ) < singleUnit := by exact_mod_cast Nat.two_pow_pos _
  have hScaled : |(Format.single.units (singleCode x) : ℚ) - units y / singleUnit| *
      2 ^ (Format.single.precision + 1) < Format.single.units (singleCode x) := by
    have hFactor : (units x : ℚ) - units y =
        (Format.single.units (singleCode x) - units y / singleUnit) * singleUnit := by
      rw [hUnits, sub_mul, div_mul_cancel₀ _ (ne_of_gt hUnit)]
      push_cast
      rfl
    rw [hFactor, abs_mul, abs_of_pos hUnit, hUnits] at hClose
    push_cast at hClose
    refine lt_of_mul_lt_mul_right (a := (singleUnit : ℚ)) ?_ (le_of_lt hUnit)
    calc
      _ = |(Format.single.units (singleCode x) : ℚ) - units y / singleUnit| * singleUnit *
          2 ^ 25 := mul_right_comm _ _ _
      _ < _ := hClose
  have hSame : singleCode y = singleCode x :=
    Format.nearest_eq_of_close (by decide) (Nat.two_pow_pos _) hCode hScaled
  rw [toSingle, if_pos hy, hSame, if_pos hCode, hSign, hx]

/-- The magnitude of a single other than zero, in units of the smallest double. -/
theorem units_single_bounds (hPositive : 0 < units x) :
    (2 : ℚ) ^ 925 ≤ units x ∧ (units x : ℚ) < 2 ^ 1205 := by
  obtain ⟨hCode, hUnits, -⟩ := single_eq hFinite hSingle
  have hUnit : singleUnit = 2 ^ 925 := by
    rw [singleUnit, show Format.double.scale - Format.single.scale = 925 by decide]
  have hLargest : 2 * Format.single.binade * 2 ^ 2 ^ Format.single.exponentBits = 2 ^ 280 := by
    rw [Format.two_binades (by decide),
      show Format.single.precision + 2 ^ Format.single.exponentBits = 280 by decide]
  have hSmall := Format.units_lt hCode
  have hSome : 1 ≤ Format.single.units (singleCode x) := by
    by_contra hNone
    rw [hUnits, Nat.eq_zero_of_not_pos hNone, Nat.zero_mul] at hPositive
    exact Nat.lt_irrefl 0 hPositive
  rw [hLargest] at hSmall
  rw [hUnit] at hUnits
  rw [hUnits, Nat.cast_mul, Nat.cast_pow, Nat.cast_ofNat]
  have hLow : (1 : ℚ) ≤ Format.single.units (singleCode x) := by exact_mod_cast hSome
  have hHigh : (Format.single.units (singleCode x) : ℚ) < 2 ^ 280 := by exact_mod_cast hSmall
  constructor
  · exact le_mul_of_one_le_left (by positivity) hLow
  · calc
      _ < (2 : ℚ) ^ 280 * 2 ^ 925 := mul_lt_mul_of_pos_right hHigh (by positivity)
      _ = 2 ^ 1205 := (pow_add 2 280 925).symm

end Single

/-- Reading a decimal of middling size gives a finite double, with the sign that was
read, which is off by half of its last bit at most. -/
theorem toFloat_close {d : Decimal} (negative : Bool)
    (hLow : (Format.double.binade : ℚ) ≤ d.value * 2 ^ Format.double.scale)
    (hHigh : d.value * 2 ^ Format.double.scale < 2 * Format.double.binade * 2 ^ 1200) :
    isFinite (d.toFloat negative) = true ∧ isNegative (d.toFloat negative) = negative ∧
      |(units (d.toFloat negative) : ℚ) - d.value * 2 ^ Format.double.scale| ≤
        d.value * 2 ^ Format.double.scale / 2 ^ 53 := by
  obtain ⟨num, den, hd, hValue, hFloat⟩ := d.toFloat_eq
  rw [← hValue] at hLow hHigh ⊢
  have hCode : Format.double.nearest num den < Format.double.infinity :=
    Format.nearest_lt_infinity (by decide) hd hHigh (by decide)
  have hCodeOf : code (d.toFloat negative) = Format.double.nearest num den := by
    rw [hFloat, ofUnits, code_ofCode negative (Nat.le_of_lt hCode)]
  refine ⟨?_, ?_, ?_⟩
  · rw [isFinite, hCodeOf]
    exact decide_eq_true hCode
  · rw [hFloat, ofUnits, isNegative_ofCode negative (Nat.le_of_lt hCode)]
  · rw [units, hCodeOf]
    exact Format.abs_units_nearest_sub_le (by decide) hd hCode hLow

variable {x : Float}

/-- Nine digits are near to a number. -/
theorem rounded_nine_close (hPositive : 0 < units x) :
    |(rounded 9 x).value * 2 ^ Format.double.scale - units x| ≤ units x / (2 * 10 ^ 8) := by
  rw [rounded]
  generalize Format.double.scale = scale
  have hScale : (0 : ℚ) < 2 ^ scale := by positivity
  have hError := Decimal.abs_nearest_sub_le_div hPositive (Nat.two_pow_pos scale) 8
  rw [Nat.cast_pow, Nat.cast_ofNat] at hError
  generalize (Decimal.nearest (8 + 1) (units x) (2 ^ scale)).value = read at hError ⊢
  have hFactor : read * 2 ^ scale - units x = (read - units x / 2 ^ scale) * 2 ^ scale := by
    rw [sub_mul, div_mul_cancel₀ _ (ne_of_gt hScale)]
  rw [hFactor, abs_mul, abs_of_pos hScale, ← le_div_iff₀ hScale, div_right_comm]
  exact hError

/-- The error of nine digits and the error of a double together are less than half
of the last bit of a single. -/
theorem errors_close {u read double : ℚ} (hu : 0 < u) (hDecimal : |read - u| ≤ u / (2 * 10 ^ 8))
    (hDouble : |double - read| ≤ read / 2 ^ 53) : |u - double| * 2 ^ 25 < u := by
  obtain ⟨hAbove, hBelow⟩ := abs_le.mp hDecimal
  obtain ⟨hAbove', hBelow'⟩ := abs_le.mp hDouble
  rw [← lt_div_iff₀ (by positivity), abs_lt]
  constructor <;> linarith

/-- Nine digits are always enough to read a single back. -/
theorem toSingle_rounded_nine (hFinite : isFinite x = true) (hSingle : toSingle x = x)
    (hPositive : 0 < units x) :
    toSingle ((rounded 9 x).toFloat (isNegative x)) = x := by
  obtain ⟨hSmallest, hLargest⟩ := units_single_bounds hFinite hSingle hPositive
  have hDecimal := rounded_nine_close hPositive
  have hUnits : (0 : ℚ) < units x := by exact_mod_cast hPositive
  have hBinade : (Format.double.binade : ℚ) = 2 ^ 52 := by
    rw [Format.binade, Nat.cast_pow, Nat.cast_ofNat]
    rfl
  obtain ⟨hAbove, hBelow⟩ := abs_le.mp hDecimal
  have hLow : (Format.double.binade : ℚ) ≤ (rounded 9 x).value * 2 ^ Format.double.scale :=
    calc
      (Format.double.binade : ℚ) ≤ 2 ^ 924 := by
        rw [hBinade]
        exact pow_le_pow_right₀ (by norm_num) (by norm_num)
      _ ≤ units x / 2 := by
        rw [le_div_iff₀ (by norm_num), ← pow_succ]
        exact hSmallest
      _ ≤ _ := by linarith only [hUnits, hAbove]
  have hHigh : (rounded 9 x).value * 2 ^ Format.double.scale <
      2 * Format.double.binade * 2 ^ 1200 :=
    calc
      _ ≤ 2 * (units x : ℚ) := by linarith only [hUnits, hBelow]
      _ < 2 * 2 ^ 1205 := mul_lt_mul_of_pos_left hLargest (by norm_num)
      _ ≤ 2 * (2 ^ 52 * 2 ^ 1200) := by
        rw [← pow_add]
        exact mul_le_mul_of_nonneg_left (pow_le_pow_right₀ (by norm_num) (by norm_num))
          (by norm_num)
      _ = _ := by rw [hBinade, mul_assoc]
  obtain ⟨hFinite', hSign, hDouble⟩ := toFloat_close (isNegative x) hLow hHigh
  exact toSingle_of_close hFinite hSingle hFinite' hSign (errors_close hUnits hDecimal hDouble)

/-- A number as it is written with so many significant digits. -/
def written (digits : Nat) (x : Float) : String :=
  signText x ++ (displayLayout digits).render (rounded digits x)

/-- The single that a numeral stands for. It is read as a double first. -/
def ofNumeral? (text : String) : Option Float :=
  (Numeral.read? text).map fun numeral => toSingle (numeral.2.toFloat numeral.1)

/-- What is written is a numeral, and stands for the decimal that was written. The
decimal has all its digits in the numeral, if these are as many as were asked for. -/
theorem read?_written (digits : Nat) (x : Float) :
    ∃ d, Numeral.read? (written digits x) = some (isNegative x, d) ∧
      (∀ negative, d.toFloat negative = (rounded digits x).toFloat negative) ∧
      (digits ≤ Decimal.digitCount (rounded digits x).trim.significand →
        d = (rounded digits x).trim) := by
  obtain ⟨d, hText, hValue, hFull⟩ :=
    Numeral.magnitude?_render (show (displayLayout digits).wholeMark = false from rfl)
      (rounded digits x)
  refine ⟨d, Numeral.read?_of_magnitude? hText (isNegative x), Decimal.toFloat_congr hValue,
    fun hDigits => hFull ?_⟩
  exact Int.ofNat_le.mpr hDigits

theorem ofNumeral?_written (digits : Nat) (x : Float) : ofNumeral? (written digits x) =
    some (toSingle ((rounded digits x).toFloat (isNegative x))) := by
  obtain ⟨d, hRead, hFloat, -⟩ := read?_written digits x
  rw [ofNumeral?, hRead, Option.map_some, hFloat]

theorem wholePart_mul (hWhole : isWhole x = true) :
    wholePart x * 2 ^ Format.double.scale = units x := by
  rw [isWhole, Bool.and_eq_true, beq_iff_eq] at hWhole
  exact Nat.div_mul_cancel (Nat.dvd_of_mod_eq_zero hWhole.2)

theorem isWhole_of_zero (hFinite : isFinite x = true) (hZero : units x = 0) :
    isWhole x = true ∧ wholePart x = 0 := by
  rw [isWhole, wholePart, hFinite, hZero, Nat.zero_mod, Nat.zero_div]
  exact ⟨rfl, rfl⟩

theorem beq_self_of_finite (hFinite : isFinite x = true) : (x == x) = true := by
  refine Float.beq_self_iff.mpr ?_
  rintro rfl
  have hNaN : isFinite Float.nan = false := by decide +kernel
  rw [hNaN] at hFinite
  cases hFinite

/-- The search for the fewest digits finds some, and there are none fewer. -/
theorem exists_fewest_digits (hFinite : isFinite x = true) (hSingle : toSingle x = x)
    (hPositive : 0 < units x) :
    ∃ digits, ((List.range 9).map (· + 1)).find? (readsBack x) = some digits ∧ 0 < digits ∧
      digits ≤ 9 ∧ readsBack x digits = true ∧
      ∀ fewer, 0 < fewer → fewer < digits → readsBack x fewer = false := by
  have hNine : readsBack x 9 = true := by
    rw [readsBack, toSingle_rounded_nine hFinite hSingle hPositive]
    exact beq_self_of_finite hFinite
  rw [List.find?_map]
  cases hFound : (List.range 9).find? (readsBack x ∘ (· + 1)) with
  | none =>
      have hNone := List.find?_eq_none.mp hFound 8 (by decide)
      exact absurd hNine hNone
  | some n =>
      obtain ⟨hReads, hRange, hEarlier⟩ := List.find?_range_eq_some.mp hFound
      refine ⟨n + 1, rfl, Nat.succ_pos n, List.mem_range.mp hRange, hReads, ?_⟩
      intro fewer hSome hFewer
      obtain ⟨k, rfl⟩ := Nat.exists_eq_add_one.mpr hSome
      simpa using hEarlier k (Nat.lt_of_succ_lt_succ hFewer)

/-- The fewest digits have no zero at the end, for it could be left out. -/
theorem digitCount_rounded {digits : Nat} (hPositive : 0 < units x) (hDigits : 0 < digits)
    (hReads : readsBack x digits = true)
    (hFewest : ∀ fewer, 0 < fewer → fewer < digits → readsBack x fewer = false) :
    Decimal.digitCount (rounded digits x).trim.significand = digits := by
  have hScale := Nat.two_pow_pos Format.double.scale
  obtain ⟨hLow, hHigh⟩ := Decimal.significand_bounds hScale hPositive hDigits
  have hLow : 10 ^ (digits - 1) ≤ (rounded digits x).significand := hLow
  have hHigh : (rounded digits x).significand ≤ 10 ^ digits := hHigh
  by_cases hZero : (rounded digits x).significand % 10 = 0
  · obtain ⟨k, rfl⟩ := Nat.exists_eq_add_one.mpr hDigits
    rcases Nat.eq_zero_or_pos k with rfl | hk
    · rw [Nat.zero_add] at hLow hHigh hZero ⊢
      have hTen : rounded 1 x = ⟨10, (rounded 1 x).exponent⟩ := by
        have hSignificand : (rounded 1 x).significand = 10 := by omega
        rw [← hSignificand]
      rw [hTen, Decimal.trim_ten]
      exact Decimal.digitCount_eq (by norm_num) (by norm_num) (by norm_num)
    · have hSame := Decimal.nearest_value_of_zero hScale hZero
      have hShorter : readsBack x k = readsBack x (k + 1) := by
        rw [readsBack, readsBack, rounded, Decimal.toFloat_congr hSame]
        rfl
      rw [hFewest k hk (Nat.lt_succ_self k), hReads] at hShorter
      cases hShorter
  · rw [Decimal.trim_of_last hZero]
    refine Decimal.digitCount_eq hDigits hLow (Nat.lt_of_le_of_ne hHigh fun hPower => hZero ?_)
    obtain ⟨k, rfl⟩ := Nat.exists_eq_add_one.mpr hDigits
    rw [hPower, Nat.pow_succ, Nat.mul_mod_left]

theorem read?_repr (negative : Bool) (n : Nat) :
    Numeral.read? ((if negative then "-" else "") ++ n.repr) = some (negative, ⟨n, 0⟩) := by
  refine Numeral.read?_of_magnitude? ?_ negative
  rw [Nat.repr_eq_ofList_toDigits, String.toList_ofList,
    Numeral.magnitude?_whole (Numeral.isDigits_toDigits n), Numeral.spelled_toDigits]

theorem ofUnits_self (hFinite : isFinite x = true) : ofUnits (isNegative x) (units x) 1 = x := by
  rw [units, ofUnits_units (isNegative x) (of_decide_eq_true hFinite), ofCode_code]

theorem toFloat_wholePart (hWhole : isWhole x = true) (negative : Bool) :
    Decimal.toFloat ⟨wholePart x, 0⟩ negative = ofUnits negative (units x) 1 := by
  rw [Decimal.toFloat, if_pos (Int.le_refl 0), Int.toNat_zero, Nat.pow_zero, Nat.mul_one,
    wholePart_mul hWhole]

/-- A whole number is written out with all its digits. A zero has lost its sign, which
does not make it another number. -/
theorem ofNumeral?_display_whole (hFinite : isFinite x = true) (hSingle : toSingle x = x)
    (hWhole : isWhole x = true) (hSmall : wholePart x < 10 ^ (16 : Nat)) :
    ∃ y, ofNumeral? (display x) = some y ∧ (y == x) = true := by
  have hDisplay : display x =
      (if isNegative x && wholePart x != 0 then "-" else "") ++ (wholePart x).repr := by
    rw [display, if_pos]
    rw [hWhole, decide_eq_true hSmall]
    rfl
  refine ⟨toSingle (ofUnits (isNegative x && wholePart x != 0) (units x) 1), ?_, ?_⟩
  · rw [ofNumeral?, hDisplay, read?_repr, Option.map_some, toFloat_wholePart hWhole]
  by_cases hZero : wholePart x = 0
  · have hUnits := wholePart_mul hWhole
    rw [hZero, Nat.zero_mul] at hUnits
    have hx := ofUnits_self hFinite
    rw [← hUnits] at hx ⊢
    rw [hZero, bne_self_eq_false, Bool.and_false, ← hx]
    cases isNegative x <;> decide +kernel
  · have hSign : (isNegative x && wholePart x != 0) = isNegative x := by
      rw [bne_iff_ne.mpr hZero, Bool.and_true]
    rw [hSign, ofUnits_self hFinite, hSingle]
    exact beq_self_of_finite hFinite

end Number

open Number

/-- Every finite single is shown as a numeral that stands for it. If it is not written
out as a whole number, then the search for digits has found some, at most nine; the
numeral has that many significant digits; and no fewer digits stand for the number. -/
theorem display_reads_back {x : Float} (hFinite : isFinite x = true) (hSingle : toSingle x = x) :
    (∃ y, ofNumeral? (display x) = some y ∧ (y == x) = true) ∧
    ((isWhole x && wholePart x < 10 ^ (16 : Nat)) = false →
      ∃ digits ≤ 9, ((List.range 9).map (· + 1)).find? (readsBack x) = some digits ∧
        display x = written digits x ∧
        (∃ d, Numeral.read? (display x) = some (isNegative x, d) ∧
          Decimal.digitCount d.significand = digits) ∧
        ∀ fewer, 0 < fewer → fewer < digits →
          ∃ y, ofNumeral? (written fewer x) = some y ∧ (y == x) = false) := by
  by_cases hWhole : (isWhole x && wholePart x < 10 ^ (16 : Nat)) = true
  · have hParts := hWhole
    rw [Bool.and_eq_true, decide_eq_true_iff] at hParts
    refine ⟨ofNumeral?_display_whole hFinite hSingle hParts.1 hParts.2, fun hOther => ?_⟩
    rw [hWhole] at hOther
    cases hOther
  have hPositive : 0 < units x := by
    refine Nat.pos_of_ne_zero fun hZero => hWhole ?_
    obtain ⟨hNumber, hPart⟩ := isWhole_of_zero hFinite hZero
    rw [hNumber, hPart]
    rfl
  obtain ⟨digits, hFound, hSome, hNine, hReads, hFewest⟩ :=
    exists_fewest_digits hFinite hSingle hPositive
  have hDisplay : display x = written digits x := by
    rw [display, if_neg hWhole, hFinite, hFound]
    rfl
  obtain ⟨d, hRead, -, hFull⟩ := read?_written digits x
  have hCount := digitCount_rounded hPositive hSome hReads hFewest
  refine ⟨⟨_, hDisplay ▸ ofNumeral?_written digits x, hReads⟩, fun _ =>
    ⟨digits, hNine, hFound, hDisplay, ⟨d, hDisplay ▸ hRead, ?_⟩, fun fewer hPos hFewer =>
      ⟨_, ofNumeral?_written fewer x, hFewest fewer hPos hFewer⟩⟩⟩
  rw [hFull hCount.ge, hCount]

/-- A single that needs all nine digits. -/
def longNumber : Float := toSingle (-0.0100342855)

theorem display_reads_back_nine : isFinite longNumber = true ∧
    toSingle longNumber = longNumber ∧ display longNumber = "-0.0100342855" ∧
    (∃ y, ofNumeral? "-0.0100342855" = some y ∧ (y == longNumber) = true) ∧
    ∀ fewer, 0 < fewer → fewer < 9 →
      ∃ y, ofNumeral? (written fewer longNumber) = some y ∧ (y == longNumber) = false := by
  have hFinite : isFinite longNumber = true := by decide +kernel
  have hSingle : toSingle longNumber = longNumber := toSingle_toSingle _
  have hDisplay : display longNumber = "-0.0100342855" := by decide +kernel
  have hFraction : (isWhole longNumber && wholePart longNumber < 10 ^ (16 : Nat)) = false := by
    decide +kernel
  have hFound : ((List.range 9).map (· + 1)).find? (readsBack longNumber) = some 9 := by
    decide +kernel
  obtain ⟨hReads, hDigits⟩ := display_reads_back hFinite hSingle
  obtain ⟨digits, -, hSearch, -, -, hFewest⟩ := hDigits hFraction
  obtain rfl : digits = 9 := Option.some.inj (hSearch.symm.trans hFound)
  exact ⟨hFinite, hSingle, hDisplay, hDisplay ▸ hReads, hFewest⟩

end Reckoner
