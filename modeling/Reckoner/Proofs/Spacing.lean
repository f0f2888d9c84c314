import Reckoner.Proofs.LongestMatch
import Mathlib.Tactic.Common

/-! Words set apart by blanks. What makes a token ends before a blank: of the
rules that take blanks, the one for rows of blanks begins with one, and the one
for comments to the end of the line makes no token. So a text of words with blanks
between them is scanned word by word. -/
namespace Reckoner

namespace Pattern

theorem matches_many_char {accepts : Char → Bool} {s : List Char} :
    Matches (.many (.char accepts)) s ↔ ∀ c ∈ s, accepts c = true := by
  induction s with
  | nil => exact ⟨fun _ _ hc => absurd hc List.not_mem_nil, fun _ => .done⟩
  | cons c s ih =>
      rw [matches_many_cons, List.forall_mem_cons]
      constructor
      · rintro ⟨a, b, rfl, hFirst, hMore⟩
        obtain ⟨d, hd, hSingle⟩ := matches_char.mp hFirst
        obtain ⟨rfl, rfl⟩ := List.cons.inj hSingle
        exact ⟨hd, ih.mp hMore⟩
      · rintro ⟨hc, hs⟩
        exact ⟨[], s, rfl, .char hc, ih.mpr hs⟩

/-- A repetition takes rows of accepted characters, with at least one. -/
theorem matches_repeated_char {accepts : Char → Bool} {s : List Char} :
    Matches (repeated (.char accepts)) s ↔ s ≠ [] ∧ ∀ c ∈ s, accepts c = true := by
  rw [repeated, matches_concat]
  constructor
  · rintro ⟨a, b, rfl, hFirst, hMore⟩
    obtain ⟨c, hc, rfl⟩ := matches_char.mp hFirst
    exact ⟨List.cons_ne_nil _ _, List.forall_mem_cons.mpr ⟨hc, matches_many_char.mp hMore⟩⟩
  · rintro ⟨hs, hAll⟩
    obtain ⟨c, s, rfl⟩ := List.exists_cons_of_ne_nil hs
    obtain ⟨hc, hAll⟩ := List.forall_mem_cons.mp hAll
    exact ⟨[c], s, rfl, .char hc, matches_many_char.mpr hAll⟩

end Pattern

namespace Lexicon

open Pattern

/-- A comment is two slashes and anything but the end of a line. -/
theorem matches_lineComment {s : List Char} :
    Matches (.concat (literal "//") (.many (.char fun c => !isLineEnd c))) s ↔
      ∃ rest, s = '/' :: '/' :: rest ∧ ∀ c ∈ rest, isLineEnd c = false := by
  have hSlashes (a : List Char) : Matches (literal "//") a ↔ a = ['/', '/'] := by
    simp [literal, Pattern.word, matches_concat, matches_char]
  rw [matches_concat]
  constructor
  · rintro ⟨a, b, rfl, ha, hb⟩
    rw [hSlashes] at ha
    rw [matches_many_char] at hb
    exact ⟨b, by rw [ha]; rfl, fun c hc => by simpa using hb c hc⟩
  · rintro ⟨rest, rfl, hRest⟩
    exact ⟨['/', '/'], rest, rfl, (hSlashes _).mpr rfl,
      matches_many_char.mpr fun c hc => by simpa using hRest c hc⟩

/-- If some of the first rules match, the action is that of one of them. -/
theorem Earliest.action_of_former {s : List Char} {former latter : List Rule} {action : Action}
    (h : Earliest s (former ++ latter) action) {rule : Rule} (hRule : rule ∈ former)
    (hMatches : rule.pattern.Matches s) : ∃ other ∈ former, other.action = action := by
  induction former with
  | nil => exact absurd hRule List.not_mem_nil
  | cons first former ih =>
      cases h with
      | here => exact ⟨first, List.mem_cons_self, rfl⟩
      | later fails others =>
          rcases List.mem_cons.mp hRule with rfl | hRule
          · exact absurd hMatches fails
          · obtain ⟨other, hOther, hAction⟩ := ih others hRule
            exact ⟨other, List.mem_cons_of_mem _ hOther, hAction⟩

/-- The rules for rows of blanks and for comments to the end of the line. -/
def loose : List Rule := codeRules.take 2

/-- The other rules, without the last. -/
def tight : List Rule := (codeRules.drop 2).dropLast

theorem codeRules_eq_loose : codeRules = loose ++ (tight ++ [⟨char fun _ => true, .skip⟩]) := rfl

/-- A rule that takes a blank after other characters takes these by themselves,
too. -/
theorem matches_of_blank {rule : Rule} (hRule : rule ∈ codeRules) {lexeme more : List Char}
    (hLexeme : lexeme ≠ []) (h : rule.pattern.Matches (lexeme ++ ' ' :: more)) :
    rule ∈ loose ∧ rule.pattern.Matches lexeme := by
  rw [codeRules_eq_loose] at hRule
  rcases List.mem_append.mp hRule with hLoose | hRule
  · refine ⟨hLoose, ?_⟩
    have hRules : rule = ⟨repeated (char isBlank), .skip⟩ ∨
        rule = ⟨concat (literal "//") (many (char fun c => !isLineEnd c)), .skip⟩ := by
      simpa [loose, codeRules] using hLoose
    rcases hRules with rfl | rfl
    · have hAll := (matches_repeated_char.mp h).2
      exact matches_repeated_char.mpr ⟨hLexeme, (List.forall_mem_append.mp hAll).1⟩
    · obtain ⟨rest, hText, hLine⟩ := matches_lineComment.mp h
      rcases lexeme with _ | ⟨c, _ | ⟨d, lexeme⟩⟩
      · exact absurd rfl hLexeme
      · -- A blank is no second slash.
        simp at hText
      · obtain ⟨rfl, hTail⟩ := List.cons.inj hText
        obtain ⟨rfl, rfl⟩ := List.cons.inj hTail
        exact matches_lineComment.mpr ⟨lexeme, rfl, (List.forall_mem_append.mp hLine).1⟩
  · exfalso
    rcases List.mem_append.mp hRule with hTight | hLast
    · have hAvoids : ∀ rule ∈ tight, rule.pattern.avoids ' ' = true := by decide
      have hBlank : ' ' ∈ lexeme ++ ' ' :: more := List.mem_append_right _ List.mem_cons_self
      exact not_mem_of_avoids h (hAvoids rule hTight) hBlank
    · rw [List.mem_singleton.mp hLast] at h
      obtain ⟨c, -, hSingle⟩ := matches_char.mp h
      obtain ⟨d, lexeme, rfl⟩ := List.exists_cons_of_ne_nil hLexeme
      simp at hSingle

/-- What makes a token ends before a blank. -/
theorem Earliest.munches_blank {lexeme : List Char} {action : Action}
    (h : Earliest lexeme codeRules action) (hLexeme : lexeme ≠ []) (hAction : action ≠ .skip)
    (v : List Char) : Munches codeRules lexeme (' ' :: v) action := by
  refine ⟨h, fun rule hRule more beyond hRest hMatches => ?_⟩
  cases more with
  | nil => rfl
  | cons c more =>
      obtain ⟨rfl, -⟩ := List.cons.inj hRest
      obtain ⟨hLoose, hAlone⟩ := matches_of_blank hRule hLexeme hMatches
      obtain ⟨other, hOther, rfl⟩ := h.action_of_former hLoose hAlone
      have hSkips : ∀ rule ∈ loose, rule.action = .skip := by decide
      exact absurd (hSkips other hOther) hAction

/-- A word that makes a token, and a blank after it. -/
theorem Earliest.scan_blank {lexeme : List Char} {action : Action} {word : Token.Kind × String}
    (h : Earliest lexeme codeRules action) (hLexeme : lexeme ≠ [])
    (hMakes : Makes action (String.ofList lexeme) (some word)) (pos : Nat) (v : List Char) :
    scan .code pos 0 (lexeme ++ ' ' :: v) =
      ⟨word.1, word.2, pos, pos + lexeme.length⟩ :: scan .code (pos + lexeme.length + 1) 0 v := by
  have hAction : action ≠ .skip := by
    rintro rfl
    cases hMakes
  have hNext : action.next .code = .code := by
    generalize String.ofList lexeme = text at hMakes
    cases hMakes <;> rfl
  have hBlank : Mode.idle .code ' ' = true := by decide
  have hMunches : Munches (rules .code) lexeme (' ' :: v) action :=
    h.munches_blank hLexeme hAction v
  rw [hMunches.scan_eq, hMakes.token?_eq, hNext, scan_eq_sweep, sweep_idle hBlank, ← scan_eq_sweep]
  rfl

/-- The kinds and texts of the tokens of a text. -/
def shapes (s : List Char) : List (Token.Kind × String) := (scan .code 0 0 s).map Token.shape

/-- The shapes of tokens do not depend on the offset at which scanning begins. -/
theorem map_shape_scan (pos : Nat) (s : List Char) :
    (scan .code pos 0 s).map Token.shape = shapes s := scan_sameShape .code pos 0 0 s

theorem map_shape_tokenize (text : String) :
    (tokenize text).map Token.shape = shapes text.toList ++ [(.finish, "")] := by
  rw [tokenize, List.map_append]
  rfl

/-- A word before a blank gives its token, and the rest is scanned as if it
stood alone. -/
theorem shapes_blank {lexeme : List Char} {action : Action} {word : Token.Kind × String}
    (h : Earliest lexeme codeRules action) (hLexeme : lexeme ≠ [])
    (hMakes : Makes action (String.ofList lexeme) (some word)) (v : List Char) :
    shapes (lexeme ++ ' ' :: v) = word :: shapes v := by
  rw [shapes, h.scan_blank hLexeme hMakes, List.map_cons, map_shape_scan]
  rfl

theorem beq_of_isWordStart {c d : Char} (hc : isWordStart c = true) (hd : isWordStart d = false) :
    (c == d) = false := by
  rw [beq_eq_false_iff_ne]
  rintro rfl
  exact absurd (hc.symm.trans hd) (by decide)

/-- The characters that numbers begin with. -/
def beginsNumber (c : Char) : Bool := c.isDigit || c == '.'

def decimals : List Char := ['0', '1', '2', '3', '4', '5', '6', '7', '8', '9']

/-- Digits are few enough to be listed, so what is said of all of them is
decided. -/
theorem mem_decimals {c : Char} (h : c.isDigit = true) : c ∈ decimals := by
  simp only [Char.isDigit, Bool.and_eq_true, decide_eq_true_eq] at h
  have hLow : 48 ≤ c.toNat := h.1
  have hHigh : c.toNat ≤ 57 := h.2
  rw [← Char.ofNat_toNat c]
  generalize c.toNat = n at hLow hHigh ⊢
  interval_cases n <;> decide

/-- No character begins both a word and a number. -/
theorem not_beginsNumber_of_isWordStart {c : Char} (h : isWordStart c = true) :
    beginsNumber c = false := by
  rw [beginsNumber, Bool.or_eq_false_iff]
  refine ⟨?_, beq_of_isWordStart h (by decide)⟩
  rw [Bool.eq_false_iff]
  intro hDigit
  have hDecimals : (decimals.all fun c => !isWordStart c) = true := by decide
  simpa [h] using List.all_eq_true.mp hDecimals c (mem_decimals hDigit)

/-- A text that can be a name: letters, digits and underscores that do not begin
with a digit and have no meaning of their own. -/
structure IsName (text : String) : Prop where
  letters : ∃ c rest, text.toList = c :: rest ∧ isWordStart c = true ∧ rest.all isWordChar = true
  free : text ∉ keywords
  notTrue : text ≠ "true"
  notFalse : text ≠ "false"

/-- Rules that do not match may be left out. -/
theorem Earliest.append_of_fails {s : List Char} {former latter : List Rule} {action : Action}
    (h : Earliest s latter action) (hFails : ∀ rule ∈ former, ¬ rule.pattern.Matches s) :
    Earliest s (former ++ latter) action := by
  induction former with
  | nil => exact h
  | cons rule former ih =>
      obtain ⟨hRule, hFormer⟩ := List.forall_mem_cons.mp hFails
      exact .later hRule (ih hFormer)

/-- None of the rules before the one for words takes what begins like a word. -/
theorem earliest_word {c : Char} {s : List Char} (hc : isWordStart c = true)
    (hs : s.all isWordChar = true) : Earliest (c :: s) codeRules .word := by
  have hBlank : isBlank c = false := by
    rw [Bool.eq_false_iff]
    intro hBlank
    have hBlanks : (blanks.all fun c => !isWordStart c) = true := by decide
    simpa [hc] using List.all_eq_true.mp hBlanks c (mem_blanks hBlank)
  have hSlash : (c == '/') = false := beq_of_isWordStart hc (by decide)
  have hZero : (c == '0') = false := beq_of_isWordStart hc (by decide)
  obtain ⟨hDigit, hDot⟩ := Bool.or_eq_false_iff.mp (not_beginsNumber_of_isWordStart hc)
  have hStarts : ∀ rule ∈ codeRules.take 6, rule.pattern.starts c = false := by
    simp [codeRules, starts, nullable, literal, Pattern.word, digits, repeated, hBlank, hSlash,
      hDigit, hDot, hZero]
  have hWord : Matches (.concat (.char isWordStart) (.many (.char isWordChar))) (c :: s) :=
    .concat (s := [c]) (.char hc) (matches_many_char.mpr (List.all_eq_true.mp hs))
  have hLatter : Earliest (c :: s) (codeRules.drop 6) .word := .here hWord
  have hWhole : Earliest (c :: s) (codeRules.take 6 ++ codeRules.drop 6) .word := by
    refine hLatter.append_of_fails fun rule hRule hMatches => ?_
    exact Bool.eq_false_iff.mp (hStarts rule hRule) (starts_of_matches hMatches)
  rwa [List.take_append_drop] at hWhole

/-- A name before a blank, with nothing known of it but its characters. -/
theorem IsName.shapes_blank {name : String} (h : IsName name) (v : List Char) :
    shapes (name.toList ++ ' ' :: v) = (.name, name) :: shapes v := by
  obtain ⟨c, rest, hText, hc, hRest⟩ := h.letters
  have hMakes : Makes .word (String.ofList name.toList) (some (.name, name)) := by
    rw [String.ofList_toList]
    exact .name h.free h.notTrue h.notFalse
  rw [hText] at hMakes ⊢
  exact Lexicon.shapes_blank (earliest_word hc hRest) (List.cons_ne_nil _ _) hMakes v

/-- A sign that is a token by itself. -/
def IsSign (kind : Token.Kind) (sign : String) : Prop :=
  best? sign.toList codeRules = some (sign.length, .emit kind)

theorem IsSign.shapes_blank {kind : Token.Kind} {sign : String} (h : IsSign kind sign)
    (v : List Char) : shapes (sign.toList ++ ' ' :: v) = (kind, sign) :: shapes v := by
  have hMunches : Munches (rules .code) _ _ (.emit kind) := best?_munches h
  rw [← String.length_toList, List.take_length] at hMunches
  have hMakes : Makes (.emit kind) (String.ofList sign.toList) (some (kind, sign)) := by
    rw [String.ofList_toList]
    exact .emit kind sign
  exact Lexicon.shapes_blank hMunches.earliest hMunches.ne_nil hMakes v

end Lexicon

end Reckoner
