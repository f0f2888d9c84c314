import Reckoner.Proofs.CorrectRounding
import Reckoner.Proofs.Numerals
import Reckoner.Proofs.Offsets
import Reckoner.Proofs.Spacing
import Mathlib.Tactic.FieldSimp
import Mathlib.Tactic.IntervalCases
import Mathlib.Tactic.Positivity

/-! Literals are resolved exactly. Whatever the lexicon takes for a number is either the
mark of a base with digits of that base after it, or decimal digits with at most one
point among them. In the first case the value is the whole number that the digits spell,
provided there are digits and the number is not too large; in the second it is the
nearest double. Both are then rounded to a single. -/
namespace Reckoner

attribute [local instance] naturalPower

namespace Literal

/-- The digits of all bases up to sixteen, in the order of their values. -/
def alphabet : List Char := "0123456789abcdef".toList

/-- The value of a digit is its place in the alphabet. Capital letters count like
small ones. What is no digit has the place after the last. -/
def place (c : Char) : Nat := alphabet.idxOf c.toLower

/-- The number that digits spell in a base. -/
def spelledIn (radix : Nat) (digits : List Char) : Nat :=
  Nat.ofDigits radix (digits.reverse.map place)

/-- A text that begins with the mark of base sixteen or two, and what follows it. -/
inductive Marked : Nat → List Char → List Char → Prop where
  | hexadecimal {mark : Char} (digits : List Char) (hMark : mark = 'x' ∨ mark = 'X') :
      Marked 16 digits ('0' :: mark :: digits)
  | binary {mark : Char} (digits : List Char) (hMark : mark = 'b' ∨ mark = 'B') :
      Marked 2 digits ('0' :: mark :: digits)

/-- A text of decimal digits, with at most one point before the last of them, and the
number that it stands for. -/
inductive Plain : List Char → ℚ → Prop where
  | whole {digits : List Char} (hSome : digits ≠ []) (hDigits : ∀ c ∈ digits, c.isDigit = true) :
      Plain digits (spelledIn 10 digits)
  | point {whole fraction : List Char} (hWhole : ∀ c ∈ whole, c.isDigit = true)
      (hSome : fraction ≠ []) (hFraction : ∀ c ∈ fraction, c.isDigit = true) :
      Plain (whole ++ '.' :: fraction)
        (spelledIn 10 whole + spelledIn 10 fraction / 10 ^ fraction.length)

/-! Digits. -/

def hexDigits : List Char := "0123456789abcdefABCDEF".toList

/-- The digits can be listed, so what is said of all of them is decided. -/
theorem mem_hexDigits {c : Char} (h : Lexicon.isHexDigit c = true) : c ∈ hexDigits := by
  simp only [Lexicon.isHexDigit, Char.isDigit, Bool.or_eq_true, Bool.and_eq_true,
    decide_eq_true_eq, ge_iff_le, Char.le_def, UInt32.le_iff_toNat_le] at h
  rw [← Char.ofNat_toNat c]
  change ((48 ≤ c.toNat ∧ c.toNat ≤ 57) ∨ (97 ≤ c.toNat ∧ c.toNat ≤ 102)) ∨
    (65 ≤ c.toNat ∧ c.toNat ≤ 70) at h
  generalize c.toNat = n at h ⊢
  rcases h with (⟨hLow, hHigh⟩ | ⟨hLow, hHigh⟩) | ⟨hLow, hHigh⟩ <;> interval_cases n <;> decide

/-- The value of a digit, which is computed from its code, is its place in the
alphabet. -/
theorem digitValue_eq_place {c : Char} (h : Lexicon.isHexDigit c = true) :
    digitValue c = place c ∧ place c < 16 := by
  have hAll : hexDigits.all (fun c => digitValue c = place c ∧ place c < 16) = true := by decide
  simpa using List.all_eq_true.mp hAll c (mem_hexDigits h)

theorem isHexDigit_of_isDigit {c : Char} (h : c.isDigit = true) : Lexicon.isHexDigit c = true := by
  rw [Lexicon.isHexDigit, h, Bool.true_or, Bool.true_or]

/-- Digits are summed from the most significant one, and with the least
significant one first they are the usual digits of a number. -/
theorem ofDigits_eq (radix : Nat) (digits : List Nat) :
    Decimal.ofDigits radix digits = Nat.ofDigits radix digits.reverse := by
  rw [Decimal.ofDigits, Nat.ofDigits_eq_foldr, List.foldr_reverse]
  simp only [Nat.cast_id]
  congr 1
  funext value digit
  ring

/-- The value that is computed from the characters is the number that they
spell. -/
theorem ofDigits_map_digitValue (radix : Nat) {digits : List Char}
    (h : ∀ c ∈ digits, Lexicon.isHexDigit c = true) :
    Decimal.ofDigits radix (digits.map digitValue) = spelledIn radix digits := by
  rw [ofDigits_eq, spelledIn, List.map_reverse,
    List.map_congr_left fun c hc => (digitValue_eq_place (h c hc)).1]

/-- Digits that are added at the end shift those before them. -/
theorem spelledIn_append (radix : Nat) (a b : List Char) :
    spelledIn radix (a ++ b) = spelledIn radix a * radix ^ b.length + spelledIn radix b := by
  rw [spelledIn, List.reverse_append, List.map_append, Nat.ofDigits_append, List.length_map,
    List.length_reverse]
  unfold spelledIn
  ring

/-- A decimal fraction has the value of all its digits, scaled by those behind
the point. -/
theorem Plain.value_decimal {text : List Char} {q : ℚ} (h : Plain text q) :
    (decimal text).value = q := by
  cases h with
  | whole hSome hDigits =>
      rw [Numeral.decimal_whole hDigits, Numeral.spelled, ofDigits_map_digitValue 10
        fun c hc => isHexDigit_of_isDigit (hDigits c hc)]
      simp [Decimal.value]
  | @point whole fraction hWhole hSome hFraction =>
      have hAll : ∀ c ∈ whole ++ fraction, Lexicon.isHexDigit c = true := fun c hc =>
        isHexDigit_of_isDigit ((List.mem_append.mp hc).elim (hWhole c) (hFraction c))
      rw [Numeral.decimal_point hWhole, Numeral.spelled, ofDigits_map_digitValue 10 hAll,
        spelledIn_append, Decimal.value, zpow_neg, zpow_natCast]
      push_cast
      field_simp

/-- Nothing else occurs in a decimal. -/
theorem Plain.digit_or_point {text : List Char} {q : ℚ} (h : Plain text q) :
    ∀ c ∈ text, c.isDigit = true ∨ c = '.' := by
  cases h with
  | whole _ hDigits => exact fun c hc => .inl (hDigits c hc)
  | point hWhole _ hFraction =>
      intro c hc
      rcases List.mem_append.mp hc with hBefore | hAfter
      · exact .inl (hWhole c hBefore)
      · rcases List.mem_cons.mp hAfter with rfl | hAfter
        · exact .inr rfl
        · exact .inl (hFraction c hAfter)

/-- A mark is neither a digit nor a point. -/
theorem Plain.not_marked {text digits : List Char} {q : ℚ} (h : Plain text q) (radix : Nat) :
    ¬ Marked radix digits text := by
  intro hMarked
  cases hMarked with
  | @hexadecimal mark _ hMark | @binary mark _ hMark =>
      have hSecond := h.digit_or_point mark (by simp)
      rcases hMark with rfl | rfl <;> revert hSecond <;> decide

/-- A text has at most one mark, so base and digits are determined. -/
theorem Marked.unique {radix radix' : Nat} {digits digits' text : List Char}
    (h : Marked radix digits text) (h' : Marked radix' digits' text) :
    radix' = radix ∧ digits' = digits := by
  cases h with
  | hexadecimal digits hMark =>
      cases h' with
      | hexadecimal => exact ⟨rfl, rfl⟩
      | binary _ hOther =>
          exact absurd hOther (by rcases hMark with rfl | rfl <;> decide)
  | binary digits hMark =>
      cases h' with
      | hexadecimal _ hOther =>
          exact absurd hOther (by rcases hMark with rfl | rfl <;> decide)
      | binary => exact ⟨rfl, rfl⟩

/-- The mark decides that the digits are read in its base. -/
theorem Marked.value?_eq {text : String} {radix : Nat} {digits : List Char}
    (h : Marked radix digits text.toList) :
    value? text = Number.toSingle <$> radixValue? radix digits := by
  unfold value?
  generalize text.toList = s at h
  cases h with
  | hexadecimal _ hMark => rcases hMark with rfl | rfl <;> rfl
  | binary _ hMark => rcases hMark with rfl | rfl <;> rfl

/-- Without a mark a text is read as a decimal. -/
theorem Plain.value?_eq {text : String} {q : ℚ} (h : Plain text.toList q) :
    value? text = some (Number.toSingle ((decimal text.toList).toFloat false)) := by
  unfold value?
  split
  · next hText => exact absurd (Marked.hexadecimal _ (.inl rfl)) ((hText ▸ h).not_marked 16)
  · next hText => exact absurd (Marked.hexadecimal _ (.inr rfl)) ((hText ▸ h).not_marked 16)
  · next hText => exact absurd (Marked.binary _ (.inl rfl)) ((hText ▸ h).not_marked 2)
  · next hText => exact absurd (Marked.binary _ (.inr rfl)) ((hText ▸ h).not_marked 2)
  · rfl

end Literal

/-! What the lexicon takes for a number. -/

namespace Lexicon

open Pattern Literal

/-- The shapes of numbers. -/
inductive IsNumeral (text : List Char) : Prop where
  | marked {radix : Nat} {digits : List Char} (marked : Marked radix digits text)
      (valid : ∀ c ∈ digits, isHexDigit c = true ∧ place c < radix)
  | plain {q : ℚ} (plain : Plain text q)

/-- What a pattern with a mark takes begins with a zero and a mark. -/
theorem matches_zero_mark {p : Pattern} {marks text : List Char}
    (h : Matches (.concat (char (· == '0')) (.concat (oneOf marks) p)) text) :
    ∃ mark ∈ marks, ∃ rest, text = '0' :: mark :: rest ∧ p.Matches rest := by
  obtain ⟨zero, tail, rfl, hZero, hTail⟩ := matches_concat.mp h
  obtain ⟨mark, rest, rfl, hMark, hRest⟩ := matches_concat.mp hTail
  obtain ⟨c, hc, rfl⟩ := matches_char.mp hZero
  obtain ⟨d, hd, rfl⟩ := matches_char.mp hMark
  exact ⟨d, by simpa using hd, rest, by rw [eq_of_beq hc]; rfl, hRest⟩

/-- The pattern of a fraction takes a point and at least one digit. -/
theorem matches_point {text : List Char}
    (h : Matches (.concat (char (· == '.')) digits) text) :
    ∃ fraction, text = '.' :: fraction ∧ fraction ≠ [] ∧ ∀ c ∈ fraction, c.isDigit = true := by
  obtain ⟨point, fraction, rfl, hPoint, hFraction⟩ := matches_concat.mp h
  obtain ⟨c, hc, rfl⟩ := matches_char.mp hPoint
  exact ⟨fraction, by rw [eq_of_beq hc]; rfl, matches_repeated_char.mp hFraction⟩

/-- Each of the three rules for numbers takes one of the shapes. -/
theorem Munches.isNumeral {mode : Mode} {lexeme rest : List Char}
    (h : Munches (rules mode) lexeme rest (.emit .number)) : IsNumeral lexeme := by
  obtain ⟨rule, hRule, hAction, hMatches⟩ := h.earliest.exists_rule
  have hNumber : rule ∈ [codeRules[3], codeRules[4], codeRules[5]] := by
    have hFiltered : rule ∈ (rules mode).filter fun rule => rule.action = .emit .number :=
      List.mem_filter.mpr ⟨hRule, decide_eq_true hAction⟩
    cases mode with
    | comment => exact absurd hFiltered (by simp [rules, commentRules])
    | code => exact hFiltered
  simp only [List.mem_cons, List.not_mem_nil, or_false] at hNumber
  rcases hNumber with rfl | rfl | rfl
  · obtain ⟨mark, hMark, digits, rfl, hDigits⟩ := matches_zero_mark hMatches
    rw [matches_many_char] at hDigits
    exact .marked (.hexadecimal digits (by simpa using hMark))
      fun c hc => ⟨hDigits c hc, (digitValue_eq_place (hDigits c hc)).2⟩
  · obtain ⟨mark, hMark, digits, rfl, hDigits⟩ := matches_zero_mark hMatches
    rw [oneOf, matches_many_char] at hDigits
    refine .marked (.binary digits (by simpa using hMark)) fun c hc => ?_
    have hBit : c = '0' ∨ c = '1' := by simpa using hDigits c hc
    rcases hBit with rfl | rfl <;> decide
  · rcases matches_either.mp hMatches with hWhole | hPoint
    · obtain ⟨whole, tail, rfl, hWhole, hTail⟩ := matches_concat.mp hWhole
      obtain ⟨hSome, hDigits⟩ := matches_repeated_char.mp hWhole
      rcases matches_either.mp hTail with hPoint | hNone
      · obtain ⟨fraction, rfl, hFraction⟩ := matches_point hPoint
        exact .plain (.point hDigits hFraction.1 hFraction.2)
      · rw [matches_empty.mp hNone, List.append_nil]
        exact .plain (.whole hSome hDigits)
    · obtain ⟨fraction, rfl, hFraction⟩ := matches_point hPoint
      exact .plain (.point (List.forall_mem_nil _) hFraction.1 hFraction.2)

/-- Number tokens come from these rules, or from a truth value, which is one
digit. -/
theorem isNumeral_of_mem_tokenize {text : String} {t : Token} (ht : t ∈ tokenize text)
    (hKind : t.kind = .number) : IsNumeral t.text.toList := by
  have hDigit (c : Char) (hText : t.text.toList = [c]) (hc : c.isDigit = true) :
      IsNumeral t.text.toList := by
    rw [hText]
    exact .plain (.whole (List.cons_ne_nil _ _) (by simpa using hc))
  rcases List.mem_append.mp ht with hScanned | hLast
  · obtain ⟨_, lexeme, _, _, action, -, hTaken, hMakes, -⟩ := (scans_scan ..).origin hScanned
    generalize hLexeme : String.ofList lexeme = text at hMakes
    generalize hShape : some t.shape = made at hMakes
    have hParts {kind : Token.Kind} {word : String} (h : some t.shape = some (kind, word)) :
        t.kind = kind ∧ t.text = word := Prod.mk.inj (Option.some.inj h)
    cases hMakes with
    | skip | openComment | closeComment => cases hShape
    | emit kind =>
        obtain ⟨rfl, hWord⟩ := hParts hShape
        rw [hKind] at hTaken
        rw [hWord, ← hLexeme, String.toList_ofList]
        exact hTaken.isNumeral
    | yes => exact hDigit '1' (by rw [(hParts hShape).2]; rfl) rfl
    | no => exact hDigit '0' (by rw [(hParts hShape).2]; rfl) rfl
    | keyword => exact absurd ((hParts hShape).1.symm.trans hKind) (by decide)
    | name => exact absurd ((hParts hShape).1.symm.trans hKind) (by decide)
  · rw [List.mem_singleton.mp hLast] at hKind
    cases hKind

end Lexicon

/-! The doubles that numbers are read as. -/

namespace Number

/-- The double that a rational number which is not negative is rounded to: the nearest
one, ties going to the even significand, or an infinity if the number is too large. -/
structure Rounds (q : ℚ) (x : Float) : Prop where
  nearest : q < 2 ^ 1024 - 2 ^ 970 →
    isNegative x = false ∧ Format.double.IsNearest q false (code x)
  infinite : 2 ^ 1024 - 2 ^ 970 ≤ q → x = infinity false

/-- Halfway between the largest double and the next power of two. -/
theorem overflow_double : Format.double.overflow = 2 ^ 1024 - 2 ^ 970 := by
  rw [Format.overflow, show Format.double.bias = 1023 by decide,
    show Format.double.precision = 53 from rfl, ← zpow_natCast 2 970]
  rfl

/-- Decimals are rounded correctly, up to the infinity. -/
theorem rounds_toFloat (d : Decimal) : Rounds d.value (d.toFloat false) := by
  obtain ⟨num, den, hd, hValue, hFloat⟩ := d.toFloat_eq
  have hScale : (0 : ℚ) < 2 ^ Format.double.scale := by positivity
  have hBound : Format.double.nearest num den < Format.double.infinity ↔
      d.value < 2 ^ 1024 - 2 ^ 970 := by
    rw [Format.nearest_lt_infinity_iff Format.wellFormed_double hd, hValue, overflow_double,
      mul_lt_mul_iff_left₀ hScale]
  have hQuotient : Format.sign false * ((num : ℚ) / den / 2 ^ Format.double.scale) = d.value := by
    rw [hValue, mul_div_cancel_right₀ _ hScale.ne']
    exact one_mul _
  have hLe := Format.nearest_le_infinity Format.double num den
  rw [hFloat, ofUnits]
  constructor
  · intro hSmall
    rw [isNegative_ofCode _ hLe, code_ofCode _ hLe, ← hQuotient]
    exact ⟨rfl, Format.isNearest_nearest Format.wellFormed_double hd (hBound.mpr hSmall) false⟩
  · intro hLarge
    have hCode : ¬ Format.double.nearest num den < Format.double.infinity :=
      fun h => absurd (hBound.mp h) (not_lt.mpr hLarge)
    rw [infinity, show Format.double.nearest num den = Format.double.infinity by omega]

/-- A whole number of few bits is a double. -/
theorem value_whole {n : Nat} (hn : n < 2 * Format.double.binade) :
    let x := (⟨n, 0⟩ : Decimal).toFloat false
    isFinite x = true ∧ isNegative x = false ∧ value x = n := by
  intro x
  obtain ⟨b, r, hFits, hMagnitude, hPlaces⟩ :=
    Format.exists_fits_mul hn (show _ ≤ Format.double.scale by decide)
  have hScale : Format.double.scale = 1074 := by decide
  obtain ⟨hFinite, hSign, hUnits⟩ := ofUnits_exact false (hFits.lt_infinity (by omega))
    (hFits.units_eq.trans hMagnitude)
  have hx : x = ofUnits false (n * 2 ^ Format.double.scale) 1 := by
    change ofUnits false (n * 10 ^ 0 * 2 ^ Format.double.scale) 1 = _
    rw [Nat.pow_zero, Nat.mul_one]
  rw [hx]
  refine ⟨hFinite, hSign, ?_⟩
  have hPower : (2 : ℚ) ^ Format.double.scale ≠ 0 := by positivity
  rw [value_eq_units, hSign, hUnits, Nat.cast_mul, Nat.cast_pow, Nat.cast_ofNat,
    mul_div_cancel_right₀ _ hPower]
  exact one_mul _

end Number

open Literal Number

/-- The value of digits in a marked base. -/
theorem Literal.radixValue?_eq {radix : Nat} {digits : List Char}
    (h : ∀ c ∈ digits, Lexicon.isHexDigit c = true) : radixValue? radix digits =
      if digits ≠ [] ∧ spelledIn radix digits ≤ 0xFFFFFFFF then
        some ((⟨spelledIn radix digits, 0⟩ : Decimal).toFloat false)
      else none := by
  rw [radixValue?, ofDigits_map_digitValue radix h]
  by_cases hNone : digits = []
  · simp [hNone]
  · by_cases hLarge : spelledIn radix digits ≤ 0xFFFFFFFF
    · simp [hNone, hLarge, largest, Nat.not_lt.mpr hLarge]
    · simp [hNone, hLarge, largest, Nat.lt_of_not_le hLarge]

/-- Every number token of every text. After a mark stand digits of its base only; it is
an error, at the token, if there are none or if they spell too large a number. All other
number tokens have a value. -/
theorem literal_resolved {text : String} {t : Token} (ht : t ∈ tokenize text)
    (hKind : t.kind = .number) :
    (∀ radix digits, Marked radix digits t.text.toList →
      (∀ c ∈ digits, place c < radix) ∧
      if digits ≠ [] ∧ spelledIn radix digits ≤ 0xFFFFFFFF then
        ∃ x, isFinite x = true ∧ isNegative x = false ∧ value x = spelledIn radix digits ∧
          Reading.literal t = .ok (.number (toSingle x) t.text)
      else Reading.literal t = .error (.parse .invalidNumber t)) ∧
    ((∀ radix digits, ¬ Marked radix digits t.text.toList) →
      ∃ q x, Plain t.text.toList q ∧ Rounds q x ∧
        Reading.literal t = .ok (.number (toSingle x) t.text)) := by
  have hLiteral {x : Float} (h : value? t.text = some x) :
      Reading.literal t = .ok (.number x t.text) := by rw [Reading.literal, h]
  rcases Lexicon.isNumeral_of_mem_tokenize ht hKind with
    @⟨radix, digits, hMarked, hValid⟩ | ⟨hPlain⟩
  · refine ⟨fun radix' digits' hMarked' => ?_, fun hNone => absurd hMarked (hNone radix digits)⟩
    obtain ⟨rfl, rfl⟩ := hMarked.unique hMarked'
    have hValue := hMarked.value?_eq
    rw [radixValue?_eq fun c hc => (hValid c hc).1] at hValue
    refine ⟨fun c hc => (hValid c hc).2, ?_⟩
    split
    · next hSmall =>
        rw [if_pos hSmall] at hValue
        have hBits : spelledIn radix' digits' < 2 * Format.double.binade :=
          Nat.lt_of_le_of_lt hSmall.2 (by decide)
        obtain ⟨hFinite, hSign, hExact⟩ := value_whole hBits
        exact ⟨_, hFinite, hSign, hExact, hLiteral hValue⟩
    · next hLarge =>
        rw [if_neg hLarge] at hValue
        rw [Reading.literal, hValue]
        rfl
  · refine ⟨fun radix digits hMarked => absurd hMarked (hPlain.not_marked radix), fun _ => ?_⟩
    exact ⟨_, _, hPlain, hPlain.value_decimal ▸ rounds_toFloat _, hLiteral hPlain.value?_eq⟩

/-- The largest number that can be written with a mark, after zeros; a mark without
digits; and a decimal that begins with its point. -/
def threeNumbers : String := "0x00FFFFFFFF 0b .1"

/-- The first token has a value in base sixteen, the second is an error, and the
third is rounded from a tenth. -/
theorem literal_resolved_threeNumbers :
    let hexadecimal : Token := ⟨.number, "0x00FFFFFFFF", 0, 12⟩
    let binary : Token := ⟨.number, "0b", 13, 15⟩
    let decimal : Token := ⟨.number, ".1", 16, 18⟩
    (hexadecimal ∈ tokenize threeNumbers ∧ binary ∈ tokenize threeNumbers ∧
      decimal ∈ tokenize threeNumbers) ∧
    (∃ x, value x = 4294967295 ∧
      Reading.literal hexadecimal = .ok (.number (toSingle x) "0x00FFFFFFFF")) ∧
    Reading.literal binary = .error (.parse .invalidNumber binary) ∧
    ∃ q x, Plain ['.', '1'] q ∧ Rounds q x ∧
      Reading.literal decimal = .ok (.number (toSingle x) ".1") := by
  intro hexadecimal binary decimal
  have hTokens : hexadecimal ∈ tokenize threeNumbers ∧ binary ∈ tokenize threeNumbers ∧
      decimal ∈ tokenize threeNumbers := by decide +kernel
  have hLargest : spelledIn 16 "00FFFFFFFF".toList = 4294967295 := by decide +kernel
  have hHexadecimalText : hexadecimal.text.toList = '0' :: 'x' :: "00FFFFFFFF".toList := by
    decide +kernel
  have hBinaryText : binary.text.toList = ['0', 'b'] := by decide +kernel
  have hDecimalText : decimal.text.toList = ['.', '1'] := by decide +kernel
  obtain ⟨-, hHexadecimal⟩ := (literal_resolved hTokens.1 rfl).1 16 "00FFFFFFFF".toList
    (hHexadecimalText ▸ .hexadecimal _ (.inl rfl))
  rw [if_pos ⟨by decide, by rw [hLargest]⟩, hLargest] at hHexadecimal
  obtain ⟨x, -, -, hValue, hLiteral⟩ := hHexadecimal
  obtain ⟨-, hBinary⟩ := (literal_resolved hTokens.2.1 rfl).1 2 []
    (hBinaryText ▸ .binary _ (.inl rfl))
  rw [if_neg (by simp)] at hBinary
  have hDecimal := (literal_resolved hTokens.2.2 rfl).2
  rw [hDecimalText] at hDecimal
  refine ⟨hTokens, ⟨x, by exact_mod_cast hValue, hLiteral⟩, hBinary, hDecimal ?_⟩
  intro radix digits hMarked
  cases hMarked

end Reckoner
