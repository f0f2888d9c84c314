import Reckoner.Number.Literal
import Reckoner.Number.Text
import Reckoner.Proofs.Decimals
import Mathlib.Data.List.TakeWhile
import Mathlib.Tactic.NormNum
import Mathlib.Tactic.Ring

/-! Numbers read from text. A numeral is a sign, digits with at most one point
between them, and maybe an exponent. It is said here which decimal a numeral
spells, and shown that a decimal that was laid out as text is spelled by it. -/
namespace Reckoner

attribute [local instance] naturalPower

namespace Numeral

/-- The number that decimal digits spell. -/
def spelled (digits : List Char) : Nat := Decimal.ofDigits 10 (digits.map Literal.digitValue)

/-- Whether a text consists of digits, and of one at least. -/
def isDigits (text : List Char) : Bool := !text.isEmpty && text.all Char.isDigit

/-- The decimal that digits spell, or digits on both sides of a point. -/
def unscaled? (text : List Char) : Option Decimal :=
  let whole := text.takeWhile (· != '.')
  let point := text.dropWhile (· != '.')
  if isDigits whole && (point.isEmpty || isDigits point.tail) then some (Literal.decimal text)
  else none

/-- The power of ten that the end of a numeral spells, if it has such an end. -/
def exponent? : List Char → Option ℤ
  | [] => some 0
  | 'e' :: '+' :: digits => if isDigits digits then some (spelled digits) else none
  | 'e' :: '-' :: digits => if isDigits digits then some (-spelled digits) else none
  | _ => none

/-- The decimal that a numeral without a sign spells. -/
def magnitude? (text : List Char) : Option Decimal := do
  let d ← unscaled? (text.takeWhile (· != 'e'))
  let e ← exponent? (text.dropWhile (· != 'e'))
  some ⟨d.significand, d.exponent + e⟩

/-- Whether a numeral is negative, and the decimal that it spells. -/
def read? (text : String) : Option (Bool × Decimal) :=
  match text.toList with
  | '-' :: rest => (magnitude? rest).map (true, ·)
  | rest => (magnitude? rest).map (false, ·)

variable {s w f : List Char}

/-- For decimal digits the value is the distance from zero. -/
theorem digitValue_of_isDigit {c : Char} (h : c.isDigit = true) :
    Literal.digitValue c = c.toNat - '0'.toNat := by
  simp only [Char.isDigit, Bool.and_eq_true, decide_eq_true_eq] at h
  exact if_pos h

/-- Digits spell what they spell in the library. -/
theorem spelled_eq (h : ∀ c ∈ s, c.isDigit = true) : spelled s = Nat.ofDigitChars 10 s 0 := by
  rw [spelled, Decimal.ofDigits, List.foldl_map, Nat.ofDigitChars_eq_foldl]
  refine List.foldl_ext _ _ _ fun n c hc => ?_
  rw [digitValue_of_isDigit (h c hc), Nat.mul_comm]

theorem isDigits_iff : isDigits s = true ↔ s ≠ [] ∧ ∀ c ∈ s, c.isDigit = true := by
  simp [isDigits]

theorem isDigit_toDigits {n : Nat} : ∀ c ∈ Nat.toDigits 10 n, c.isDigit = true :=
  fun _ hc => Nat.isDigit_of_mem_toDigits (by norm_num) (by norm_num) hc

/-- The digits of a number are digits, and there is at least one. -/
theorem isDigits_toDigits (n : Nat) : isDigits (Nat.toDigits 10 n) = true :=
  isDigits_iff.mpr ⟨Nat.toDigits_ne_nil, isDigit_toDigits⟩

theorem isDigit_zeros (n : Nat) : ∀ c ∈ Layout.zeros n, c.isDigit = true := by
  intro c hc
  rw [(List.mem_replicate.mp hc).2]
  decide

/-- They spell the number. -/
theorem spelled_toDigits (n : Nat) : spelled (Nat.toDigits 10 n) = n := by
  rw [spelled_eq isDigit_toDigits, Nat.ofDigitChars_ten_toDigits]

/-- Zeros at the end count. -/
theorem spelled_append_zeros (h : ∀ c ∈ s, c.isDigit = true) (n : Nat) :
    spelled (s ++ Layout.zeros n) = spelled s * 10 ^ n := by
  rw [spelled_eq (List.forall_mem_append.mpr ⟨h, isDigit_zeros n⟩), spelled_eq h,
    Nat.ofDigitChars_append, Layout.zeros, Nat.ofDigitChars_replicate_zero, Nat.mul_comm]

/-- Zeros in front do not count. -/
theorem spelled_zeros_append (h : ∀ c ∈ s, c.isDigit = true) (n : Nat) :
    spelled (Layout.zeros n ++ s) = spelled s := by
  rw [spelled_eq (List.forall_mem_append.mpr ⟨isDigit_zeros n, h⟩), spelled_eq h,
    Nat.ofDigitChars_append, Layout.zeros, Nat.ofDigitChars_replicate_zero, Nat.mul_zero]

/-- A character that is no digit does not stand among digits. -/
theorem all_ne_of_isDigit (h : ∀ c ∈ s, c.isDigit = true) {d : Char} (hd : d.isDigit = false) :
    ∀ c ∈ s, (c != d) = true := by
  intro c hc
  rw [bne_iff_ne]
  rintro rfl
  rw [h c hc] at hd
  cases hd

/-- The part of a text before a character and the part from it on. -/
theorem parts_at {d : Char} (h : ∀ c ∈ s, (c != d) = true) (t : List Char) :
    (s ++ d :: t).takeWhile (· != d) = s ∧ (s ++ d :: t).dropWhile (· != d) = d :: t := by
  rw [List.takeWhile_append_of_pos h, List.dropWhile_append_of_pos h]
  simp

theorem parts_without {d : Char} (h : ∀ c ∈ s, (c != d) = true) :
    s.takeWhile (· != d) = s ∧ s.dropWhile (· != d) = [] :=
  ⟨List.takeWhile_eq_self_iff.mpr h, List.dropWhile_eq_nil_iff.mpr h⟩

/-- Without a point all digits are the significand. -/
theorem decimal_whole (hs : ∀ c ∈ s, c.isDigit = true) : Literal.decimal s = ⟨spelled s, 0⟩ := by
  obtain ⟨hTake, hDrop⟩ := parts_without (all_ne_of_isDigit hs
    (show Char.isDigit '.' = false by decide))
  simp only [Literal.decimal, hTake, hDrop, List.drop_nil, List.append_nil, List.length_nil]
  rfl

/-- The digits behind the point count for the exponent. -/
theorem decimal_point (hw : ∀ c ∈ w, c.isDigit = true) (f : List Char) :
    Literal.decimal (w ++ '.' :: f) = ⟨spelled (w ++ f), -f.length⟩ := by
  obtain ⟨hTake, hDrop⟩ := parts_at (all_ne_of_isDigit hw
    (show Char.isDigit '.' = false by decide)) f
  simp only [Literal.decimal, hTake, hDrop, List.drop_succ_cons, List.drop_zero]
  rfl

/-- Digits are a numeral without a point. -/
theorem unscaled?_whole (hs : isDigits s = true) : unscaled? s = some ⟨spelled s, 0⟩ := by
  have hDigits := (isDigits_iff.mp hs).2
  obtain ⟨hTake, hDrop⟩ := parts_without (all_ne_of_isDigit hDigits
    (show Char.isDigit '.' = false by decide))
  simp only [unscaled?, hTake, hDrop, hs, decimal_whole hDigits, List.isEmpty_nil, Bool.true_or,
    Bool.and_true, if_true]

/-- Digits on both sides of a point are a numeral, in which those behind the
point are places. -/
theorem unscaled?_point (hw : isDigits w = true) (hf : isDigits f = true) :
    unscaled? (w ++ '.' :: f) = some ⟨spelled (w ++ f), -f.length⟩ := by
  have hDigits := (isDigits_iff.mp hw).2
  obtain ⟨hTake, hDrop⟩ := parts_at (all_ne_of_isDigit hDigits
    (show Char.isDigit '.' = false by decide)) f
  simp only [unscaled?, hTake, hDrop, hw, hf, decimal_point hDigits, List.tail_cons, Bool.or_true,
    Bool.and_true, if_true]

/-- A numeral without an exponent. -/
theorem magnitude?_unscaled {d : Decimal} (hText : ∀ c ∈ s, (c != 'e') = true)
    (h : unscaled? s = some d) : magnitude? s = some d := by
  obtain ⟨hTake, hDrop⟩ := parts_without hText
  rw [magnitude?, hTake, hDrop, h]
  simp [exponent?]

/-- An exponent is read back from its text, whatever its sign and however many
zeros fill it up. -/
theorem exponent?_exponentText (e : ℤ) : exponent? ('e' :: Layout.exponentText e) = some e := by
  have hDigits : ∀ c ∈ Layout.zeros (2 - (Nat.toDigits 10 e.natAbs).length) ++
      Nat.toDigits 10 e.natAbs, c.isDigit = true :=
    List.forall_mem_append.mpr ⟨isDigit_zeros _, isDigit_toDigits⟩
  have hSome : isDigits (Layout.zeros (2 - (Nat.toDigits 10 e.natAbs).length) ++
      Nat.toDigits 10 e.natAbs) = true := by
    refine isDigits_iff.mpr ⟨?_, hDigits⟩
    exact List.append_ne_nil_of_right_ne_nil _ Nat.toDigits_ne_nil
  have hSpelled := spelled_zeros_append (s := Nat.toDigits 10 e.natAbs) isDigit_toDigits
    (2 - (Nat.toDigits 10 e.natAbs).length)
  rw [spelled_toDigits] at hSpelled
  simp only [Layout.exponentText]
  split
  · rw [exponent?, if_pos hSome, hSpelled]
    congr 1
    omega
  · rw [exponent?, if_pos hSome, hSpelled]
    congr 1
    omega

/-- With an exponent the decimal is shifted. -/
theorem magnitude?_scaled {d : Decimal} (hText : ∀ c ∈ s, (c != 'e') = true)
    (h : unscaled? s = some d) (e : ℤ) :
    magnitude? (s ++ 'e' :: Layout.exponentText e) = some ⟨d.significand, d.exponent + e⟩ := by
  obtain ⟨hTake, hDrop⟩ := parts_at hText (Layout.exponentText e)
  rw [magnitude?, hTake, hDrop, h, exponent?_exponentText]
  rfl

/-- A sign is no part of a magnitude. -/
theorem magnitude?_minus (s : List Char) : magnitude? ('-' :: s) = none := by
  have hMinus : isDigits ('-' :: (s.takeWhile (· != 'e')).takeWhile (· != '.')) = false := by
    simp [isDigits]
  have hTake : ('-' :: s).takeWhile (· != 'e') = '-' :: s.takeWhile (· != 'e') := by simp
  have hWhole : ('-' :: s.takeWhile (· != 'e')).takeWhile (· != '.') =
      '-' :: (s.takeWhile (· != 'e')).takeWhile (· != '.') := by simp
  rw [magnitude?, hTake, unscaled?]
  simp only [hWhole, hMinus, Bool.false_and]
  rfl

/-- The sign is read back, since no magnitude begins with one. -/
theorem read?_of_magnitude? {text : String} {d : Decimal} (h : magnitude? text.toList = some d)
    (negative : Bool) :
    read? ((if negative then "-" else "") ++ text) = some (negative, d) := by
  cases negative with
  | true =>
      have hText : ("-" ++ text).toList = '-' :: text.toList := by
        rw [String.toList_append]
        rfl
      rw [if_pos rfl, read?, hText]
      simp only [h, Option.map_some]
  | false =>
      have hText : ((if false then "-" else "") ++ text).toList = text.toList := by simp
      rw [read?, hText]
      split
      · next rest hMinus =>
          rw [hMinus, magnitude?_minus] at h
          cases h
      · rw [h]
        rfl

theorem isDigits_append_left (hw : isDigits w = true) (hf : ∀ c ∈ f, c.isDigit = true) :
    isDigits (w ++ f) = true := by
  obtain ⟨hSome, hAll⟩ := isDigits_iff.mp hw
  refine isDigits_iff.mpr ⟨?_, List.forall_mem_append.mpr ⟨hAll, hf⟩⟩
  exact List.append_ne_nil_of_left_ne_nil hSome f

theorem isDigits_append_right (hw : ∀ c ∈ w, c.isDigit = true) (hf : isDigits f = true) :
    isDigits (w ++ f) = true := by
  obtain ⟨hSome, hAll⟩ := isDigits_iff.mp hf
  refine isDigits_iff.mpr ⟨?_, List.forall_mem_append.mpr ⟨hw, hAll⟩⟩
  exact List.append_ne_nil_of_right_ne_nil w hSome

/-- Digits on both sides of a point hold no exponent. -/
theorem all_ne_e_point (hw : ∀ c ∈ w, c.isDigit = true) (hf : ∀ c ∈ f, c.isDigit = true) :
    ∀ c ∈ w ++ '.' :: f, (c != 'e') = true := by
  have hLetter : Char.isDigit 'e' = false := by decide
  refine List.forall_mem_append.mpr ⟨all_ne_of_isDigit hw hLetter, ?_⟩
  exact List.forall_mem_cons.mpr ⟨by decide, all_ne_of_isDigit hf hLetter⟩

theorem magnitude?_point (hw : isDigits w = true) (hf : isDigits f = true) :
    magnitude? (w ++ '.' :: f) = some ⟨spelled (w ++ f), -f.length⟩ :=
  magnitude?_unscaled (all_ne_e_point (isDigits_iff.mp hw).2 (isDigits_iff.mp hf).2)
    (unscaled?_point hw hf)

/-- A whole number has no exponent. -/
theorem magnitude?_whole (hs : isDigits s = true) : magnitude? s = some ⟨spelled s, 0⟩ :=
  magnitude?_unscaled (all_ne_of_isDigit (isDigits_iff.mp hs).2 (by decide)) (unscaled?_whole hs)

section Layouts

variable (n : Nat)

/-- A whole number with zeros after it. -/
theorem magnitude?_zeros (k : Nat) :
    magnitude? (Nat.toDigits 10 n ++ Layout.zeros k) = some ⟨n * 10 ^ k, 0⟩ := by
  rw [magnitude?_whole (isDigits_append_left (isDigits_toDigits n) (isDigit_zeros k)),
    spelled_append_zeros isDigit_toDigits, spelled_toDigits]

/-- A point among the digits has digits on both sides. -/
theorem withPoint_digits {k : Nat} (hk : 0 < k) (hMore : k < (Nat.toDigits 10 n).length) :
    isDigits ((Nat.toDigits 10 n).take k) = true ∧
      isDigits ((Nat.toDigits 10 n).drop k) = true := by
  constructor
  · refine isDigits_iff.mpr ⟨?_, fun c hc => isDigit_toDigits c (List.mem_of_mem_take hc)⟩
    rw [← List.length_pos_iff, List.length_take]
    omega
  · refine isDigits_iff.mpr ⟨?_, fun c hc => isDigit_toDigits c (List.mem_of_mem_drop hc)⟩
    rw [← List.length_pos_iff, List.length_drop]
    omega

/-- Digits with a point set among them spell the number that they spell without,
shifted by the digits behind it. -/
theorem unscaled?_withPoint {k : Nat} (hk : 0 < k) (hMore : k < (Nat.toDigits 10 n).length) :
    unscaled? (Layout.withPoint (Nat.toDigits 10 n) k) =
      some ⟨n, (k : ℤ) - (Nat.toDigits 10 n).length⟩ := by
  obtain ⟨hWhole, hFraction⟩ := withPoint_digits n hk hMore
  rw [Layout.withPoint, unscaled?_point hWhole hFraction, List.take_append_drop, spelled_toDigits,
    List.length_drop]
  congr 2
  omega

theorem all_ne_e_withPoint (k : Nat) :
    ∀ c ∈ Layout.withPoint (Nat.toDigits 10 n) k, (c != 'e') = true :=
  all_ne_e_point (fun c hc => isDigit_toDigits c (List.mem_of_mem_take hc))
    fun c hc => isDigit_toDigits c (List.mem_of_mem_drop hc)

/-- A number below one. -/
theorem magnitude?_fraction (k : Nat) :
    magnitude? ('0' :: '.' :: (Layout.zeros k ++ Nat.toDigits 10 n)) =
      some ⟨n, -(k : ℤ) - (Nat.toDigits 10 n).length⟩ := by
  have hZero : isDigits ['0'] = true := by decide
  have hFraction := isDigits_append_right (isDigit_zeros k) (isDigits_toDigits n)
  have hSpelled : spelled (['0'] ++ (Layout.zeros k ++ Nat.toDigits 10 n)) = n := by
    have hFront : ['0'] ++ (Layout.zeros k ++ Nat.toDigits 10 n) =
        Layout.zeros (k + 1) ++ Nat.toDigits 10 n := rfl
    rw [hFront, spelled_zeros_append isDigit_toDigits, spelled_toDigits]
  have hLength : (Layout.zeros k ++ Nat.toDigits 10 n).length =
      k + (Nat.toDigits 10 n).length := by
    rw [List.length_append, Layout.zeros, List.length_replicate]
  have hRead := magnitude?_point hZero hFraction
  rw [hSpelled, hLength] at hRead
  refine hRead.trans ?_
  congr 2
  omega

/-- A number with an exponent. -/
theorem magnitude?_exponent (e : ℤ) :
    magnitude? ((if (Nat.toDigits 10 n).length = 1 then Nat.toDigits 10 n
      else Layout.withPoint (Nat.toDigits 10 n) 1) ++ 'e' :: Layout.exponentText e) =
      some ⟨n, e + 1 - (Nat.toDigits 10 n).length⟩ := by
  have hLetter : Char.isDigit 'e' = false := by decide
  split
  · next hOne =>
      have hRead := magnitude?_scaled (all_ne_of_isDigit (s := Nat.toDigits 10 n) isDigit_toDigits
        hLetter) (unscaled?_whole (isDigits_toDigits n)) e
      rw [hRead, spelled_toDigits, hOne]
      simp
  · next hMore =>
      have hCount : 0 < (Nat.toDigits 10 n).length := Nat.length_toDigits_pos
      have hRead := magnitude?_scaled (all_ne_e_withPoint n 1)
        (unscaled?_withPoint n Nat.one_pos (by omega)) e
      rw [hRead]
      congr 2
      push_cast
      ring

end Layouts

/-- The text of a decimal spells the number that the decimal stands for. Its digits
are those of the decimal without zeros at the end, if these are as many as may
stand before the point. -/
theorem magnitude?_render {layout : Layout} (hMark : layout.wholeMark = false) (d : Decimal) :
    ∃ r, magnitude? (layout.render d).toList = some r ∧ r.value = d.value ∧
      (layout.positionalBelow ≤ Decimal.digitCount d.trim.significand → r = d.trim) := by
  have hValue := d.value_trim
  have hText : (layout.render d).toList = _ := String.toList_ofList
  rw [hText]
  generalize d.trim = t at hValue ⊢
  have hCount : (Nat.toDigits 10 t.significand).length = Decimal.digitCount t.significand := rfl
  have hSame {e : ℤ} (he : e = t.exponent) : (⟨t.significand, e⟩ : Decimal) = t := by rw [he]
  split
  · next hPositional =>
      split
      -- The zeros after the digits become digits of the numeral, unless there are none.
      · next hWhole =>
          refine ⟨⟨t.significand * 10 ^ t.exponent.toNat, 0⟩, ?_, ?_, fun hFull => ?_⟩
          · rw [hMark, if_neg (by decide), List.append_nil, magnitude?_zeros]
          · obtain ⟨k, hk⟩ := Int.eq_ofNat_of_zero_le hWhole
            rw [← hValue, Decimal.value, Decimal.value, hk, Int.toNat_natCast, zpow_zero,
              zpow_natCast]
            push_cast
            ring
          · have hZero : t.exponent = 0 := by omega
            rw [hZero, Int.toNat_zero, Nat.pow_zero, Nat.mul_one, ← hZero]
      · next hBroken =>
          split
          · next hAbove =>
              refine ⟨t, ?_, hValue, fun _ => rfl⟩
              rw [magnitude?_unscaled (all_ne_e_withPoint _ _)
                (unscaled?_withPoint t.significand (Nat.succ_pos _) (by omega))]
              exact congrArg some (hSame (by omega))
          · next hBelow =>
              refine ⟨t, ?_, hValue, fun _ => rfl⟩
              rw [magnitude?_fraction]
              exact congrArg some (hSame (by omega))
  · refine ⟨t, ?_, hValue, fun _ => rfl⟩
    rw [magnitude?_exponent]
    exact congrArg some (hSame (by omega))

end Numeral

end Reckoner
