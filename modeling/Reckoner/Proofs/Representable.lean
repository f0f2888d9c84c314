import Reckoner.Number.Single

/-! The magnitudes that a format has. A magnitude is a significand shifted to the
left, and its code is the significand plus one binade for each place. Rounding
finds this code again, so a magnitude of the format is rounded to itself. Every
magnitude of a single is one of a double. -/
namespace Reckoner

attribute [local instance] naturalPower

theorem roundDiv_mul (n : Nat) {d : Nat} (hd : 0 < d) : roundDiv (n * d) d = n := by
  unfold roundDiv
  rw [Nat.mul_mod_left, Nat.mul_div_cancel n hd, if_pos (Or.inl (by omega))]

namespace Format

/-- A significand and the number of places by which it is shifted, as a format
pairs them: only a significand that uses all bits is shifted. -/
structure Fits (f : Format) (significand shift : Nat) : Prop where
  narrow : significand < 2 * f.binade
  full : shift = 0 ∨ f.binade ≤ significand

theorem binade_pos (f : Format) : 0 < f.binade := Nat.two_pow_pos _

/-- Every code stands for a significand and a shift. -/
theorem exists_fits (f : Format) (code : Nat) :
    ∃ a s, f.Fits a s ∧ code = a + s * f.binade := by
  by_cases hLow : code < f.binade
  · exact ⟨code, 0, ⟨by omega, .inl rfl⟩, by omega⟩
  · have hRest := Nat.mod_lt code f.binade_pos
    have hDivision := Nat.div_add_mod code f.binade
    have hBinades : 0 < code / f.binade := Nat.div_pos (by omega) f.binade_pos
    refine ⟨f.binade + code % f.binade, code / f.binade - 1, ⟨by omega, .inr (by omega)⟩, ?_⟩
    obtain ⟨s, hs⟩ := Nat.exists_eq_add_one.mpr hBinades
    rw [hs] at hDivision ⊢
    rw [Nat.mul_comm, Nat.add_mul] at hDivision
    simp only [Nat.add_sub_cancel]
    omega

namespace Fits

variable {f : Format} {a s : Nat}

theorem units_eq (h : f.Fits a s) : f.units (a + s * f.binade) = a * 2 ^ s := by
  have hPos := f.binade_pos
  have hNarrow := h.narrow
  unfold units
  rcases Nat.lt_or_ge a f.binade with hLow | hHigh
  · have hShift : s = 0 := h.full.resolve_right (by omega)
    subst hShift
    rw [Nat.zero_mul, Nat.add_zero, if_pos hLow, Nat.pow_zero, Nat.mul_one]
  · have hQuotient : (a + s * f.binade) / f.binade = s + 1 := by
      rw [Nat.add_mul_div_right a s hPos,
        Nat.div_eq_of_lt_le (m := a) (k := 1) (by omega) (by omega), Nat.add_comm]
    have hRest : f.binade + (a + s * f.binade) % f.binade = a := by
      rw [Nat.add_mul_mod_self_right, Nat.mod_eq_sub_mod hHigh, Nat.mod_eq_of_lt (by omega)]
      omega
    rw [if_neg (by omega), hQuotient, hRest, Nat.add_sub_cancel]

/-- The shift is what rounding takes it to be. -/
theorem shift_eq (h : f.Fits a s) (hBits : 0 < f.precision) :
    (a * 2 ^ s).log2 + 1 - f.precision = s := by
  have hNarrow : a < 2 ^ f.precision := by
    have hDouble : 2 * f.binade = 2 ^ f.precision := by
      rw [binade, ← Nat.pow_succ', Nat.succ_eq_add_one, Nat.sub_add_cancel hBits]
    rw [← hDouble]
    exact h.narrow
  rcases h.full with rfl | hFull
  · rw [Nat.pow_zero, Nat.mul_one]
    by_cases hZero : a = 0
    · subst hZero
      exact Nat.sub_eq_zero_of_le hBits
    · have hLog := (Nat.log2_lt hZero).mpr hNarrow
      omega
  · have hLog : (a * 2 ^ s).log2 = f.precision - 1 + s := by
      refine (Nat.log2_eq_iff ?_).mpr ⟨?_, ?_⟩
      · have hProduct := Nat.mul_pos (Nat.lt_of_lt_of_le f.binade_pos hFull) (Nat.two_pow_pos s)
        omega
      · rw [Nat.pow_add]
        exact Nat.mul_le_mul_right _ hFull
      · rw [show f.precision - 1 + s + 1 = f.precision + s by omega, Nat.pow_add]
        exact Nat.mul_lt_mul_of_pos_right hNarrow (Nat.two_pow_pos s)
    omega

/-- In whatever unit a magnitude of the format is measured, it is rounded to the
code of itself. -/
theorem nearest_eq (h : f.Fits a s) (hBits : 0 < f.precision) {d : Nat} (hd : 0 < d) :
    f.nearest (a * 2 ^ s * d) d = min (a + s * f.binade) f.infinity := by
  unfold nearest
  rw [Nat.mul_div_cancel _ hd, h.shift_eq hBits, Nat.mul_assoc, Nat.mul_comm (2 ^ s) d]
  simp only [roundDiv_mul a (Nat.mul_pos hd (Nat.two_pow_pos s))]

end Fits

/-- A magnitude of the format is rounded to its own code. -/
theorem nearest_units (f : Format) (hBits : 0 < f.precision) {code d : Nat}
    (hCode : code < f.infinity) (hd : 0 < d) : f.nearest (f.units code * d) d = code := by
  obtain ⟨a, s, hFits, rfl⟩ := f.exists_fits code
  rw [hFits.units_eq, hFits.nearest_eq hBits hd]
  exact Nat.min_eq_left (Nat.le_of_lt hCode)

/-- A short significand is shifted until it uses all bits, so that fewer places
are left to shift it by. -/
theorem exists_fits_mul {f : Format} {n places : Nat} (hNarrow : n < 2 * f.binade)
    (hPlaces : f.precision - 1 ≤ places) :
    ∃ b r, f.Fits b r ∧ b * 2 ^ r = n * 2 ^ places ∧ r ≤ places := by
  by_cases hZero : n = 0
  · subst hZero
    exact ⟨0, 0, ⟨Nat.mul_pos (by decide) f.binade_pos, .inl rfl⟩, by simp, Nat.zero_le _⟩
  · have hBits : n.log2 ≤ f.precision - 1 := by
      rw [← Nat.lt_succ_iff, Nat.log2_lt hZero, Nat.succ_eq_add_one, Nat.pow_succ']
      exact hNarrow
    have hLow : 2 ^ n.log2 * 2 ^ (f.precision - 1 - n.log2) = f.binade := by
      rw [← Nat.pow_add, Nat.add_sub_cancel' hBits]
      rfl
    have hFull : f.binade ≤ n * 2 ^ (f.precision - 1 - n.log2) :=
      hLow ▸ Nat.mul_le_mul_right _ (Nat.log2_self_le hZero)
    have hShort : n * 2 ^ (f.precision - 1 - n.log2) < 2 * f.binade := by
      have hDouble : 2 ^ (n.log2 + 1) * 2 ^ (f.precision - 1 - n.log2) = 2 * f.binade := by
        rw [Nat.pow_succ', Nat.mul_assoc, hLow]
      exact hDouble ▸ Nat.mul_lt_mul_of_pos_right Nat.lt_log2_self (Nat.two_pow_pos _)
    refine ⟨_, places - (f.precision - 1 - n.log2), ⟨hShort, .inr hFull⟩, ?_, Nat.sub_le _ _⟩
    rw [Nat.mul_assoc, ← Nat.pow_add]
    congr 2
    omega

/-- With this shift at most, the code stands for a number. -/
theorem Fits.lt_infinity {b r : Nat} (h : double.Fits b r) (hr : r ≤ 2045) :
    b + r * double.binade < double.infinity := by
  have hInfinity : double.infinity = 2047 * double.binade := rfl
  have hBinades : (r + 2) * double.binade ≤ 2047 * double.binade :=
    Nat.mul_le_mul_right _ (by omega)
  have hNarrow := h.narrow
  rw [Nat.add_mul _ 2] at hBinades
  omega

/-- A magnitude of a single, measured in units of a double. -/
theorem Fits.widen {a s : Nat} (h : single.Fits a s)
    (hFinite : a + s * single.binade < single.infinity) :
    ∃ b r, double.Fits b r ∧ b * 2 ^ r = a * 2 ^ s * Number.singleUnit ∧
      b + r * double.binade < double.infinity := by
  have hShift : s < 255 := Nat.lt_of_mul_lt_mul_right
    (Nat.lt_of_le_of_lt (Nat.le_add_left (s * single.binade) a) hFinite)
  have hNarrow : a < 2 * double.binade := Nat.lt_of_lt_of_le h.narrow (by decide)
  obtain ⟨b, r, hFits, hMagnitude, hPlaces⟩ := @exists_fits_mul double a (s + 925)
    hNarrow (Nat.le_trans (by decide) (Nat.le_add_left 925 s))
  refine ⟨b, r, hFits, ?_, ?_⟩
  · rw [hMagnitude, Nat.mul_assoc, Number.singleUnit, ← Nat.pow_add,
      show double.scale - single.scale = 925 by decide]
  · exact hFits.lt_infinity (by omega)

end Format
end Reckoner
