import Reckoner.Proofs.Matching
import Mathlib.Tactic.Common

/-! Scanning goes by longest match. At every place the rules in force take the
longest beginning that any of them matches, and the earliest of the rules that
match it says what becomes of it. -/
namespace Reckoner

open Pattern

namespace Lexicon

/-- The first of the rules that match the text has this action. -/
inductive Earliest (text : List Char) : List Rule → Action → Prop where
  | here {rule : Rule} {rest : List Rule} (fits : rule.pattern.Matches text) :
      Earliest text (rule :: rest) rule.action
  | later {rule : Rule} {rest : List Rule} {action : Action} (fails : ¬ rule.pattern.Matches text)
      (others : Earliest text rest action) : Earliest text (rule :: rest) action

/-- From a text that is `lexeme` and then `rest`, the rules take `lexeme`: one of
them matches it, the first that does has this action, and none matches a longer
beginning. -/
structure Munches (rules : List Rule) (lexeme rest : List Char) (action : Action) : Prop where
  earliest : Earliest lexeme rules action
  longest : ∀ rule ∈ rules, ∀ more beyond, rest = more ++ beyond →
    rule.pattern.Matches (lexeme ++ more) → more = []

/-- What an action makes of a word: nothing, or a kind of token and its text. -/
inductive Makes : Action → String → Option (Token.Kind × String) → Prop where
  | skip (text : String) : Makes .skip text none
  | openComment (text : String) : Makes .openComment text none
  | closeComment (text : String) : Makes .closeComment text none
  | emit (kind : Token.Kind) (text : String) : Makes (.emit kind) text (some (kind, text))
  | yes : Makes .word "true" (some (.number, "1"))
  | no : Makes .word "false" (some (.number, "0"))
  | keyword {text : String} (reserved : text ∈ keywords) :
      Makes .word text (some (.keyword, text))
  | name {text : String} (free : text ∉ keywords) (notTrue : text ≠ "true")
      (notFalse : text ≠ "false") : Makes .word text (some (.name, text))

/-- The tokens of a text by longest match, from offset `pos` on and with the
rules of `mode` in force at first. -/
inductive Scans : Mode → Nat → List Char → List Token → Prop where
  | done (mode : Mode) (pos : Nat) : Scans mode pos [] []
  | next {mode : Mode} {pos : Nat} {lexeme rest : List Char} {action : Action}
      {made : Option (Token.Kind × String)} {ts : List Token}
      (taken : Munches (rules mode) lexeme rest action)
      (makes : Makes action (String.ofList lexeme) made)
      (later : Scans (action.next mode) (pos + lexeme.length) rest ts) :
      Scans mode pos (lexeme ++ rest)
        ((made.map fun word => ⟨word.1, word.2, pos, pos + lexeme.length⟩).toList ++ ts)

variable {s lexeme rest : List Char} {rules : List Rule} {action : Action} {n : Nat}

/-- Only one rule is the first. -/
theorem Earliest.unique {action' : Action} (h : Earliest s rules action)
    (h' : Earliest s rules action') : action = action' := by
  induction h with
  | here fits =>
      cases h' with
      | here => rfl
      | later fails _ => exact absurd fits fails
  | later fails _ ih =>
      cases h' with
      | here fits => exact absurd fits fails
      | later _ others => exact ih others

theorem Earliest.exists_rule (h : Earliest s rules action) :
    ∃ rule ∈ rules, rule.action = action ∧ rule.pattern.Matches s := by
  induction h with
  | here fits => exact ⟨_, List.mem_cons_self, rfl, fits⟩
  | later _ _ ih =>
      obtain ⟨rule, hRule, hFits⟩ := ih
      exact ⟨rule, List.mem_cons_of_mem _ hRule, hFits⟩

/-- The best match is at least as long as that of any rule. -/
theorem exists_best? {rule : Rule} (hRule : rule ∈ rules) {k : Nat}
    (h : rule.pattern.longest? s = some k) :
    ∃ n action, best? s rules = some (n, action) ∧ k ≤ n := by
  induction rules with
  | nil => cases hRule
  | cons first rest ih =>
      rw [best?]
      rcases List.mem_cons.mp hRule with rfl | hRest
      · rw [h]
        split
        · next hNone => cases hNone
        · next hSome _ =>
            cases hSome
            exact ⟨k, _, rfl, Nat.le_refl k⟩
        · next hSome _ =>
            cases hSome
            split
            · next hLess => exact ⟨_, _, rfl, Nat.le_of_lt hLess⟩
            · exact ⟨k, _, rfl, Nat.le_refl k⟩
      · obtain ⟨n, action, hBest, hLe⟩ := ih hRest
        rw [hBest]
        split
        · exact ⟨n, action, rfl, hLe⟩
        · next hNone => cases hNone
        · next hSome =>
            cases hSome
            split
            · exact ⟨n, action, rfl, hLe⟩
            · next hLess => exact ⟨_, _, rfl, by omega⟩

theorem le_of_best? (h : best? s rules = some (n, action)) {rule : Rule} (hRule : rule ∈ rules)
    {a b : List Char} (hText : s = a ++ b) (hMatches : rule.pattern.Matches a) : a.length ≤ n := by
  subst hText
  obtain ⟨k, hLongest, hLength⟩ := exists_longest? hMatches b
  obtain ⟨m, action', hBest, hLe⟩ := exists_best? hRule hLongest
  rw [h] at hBest
  cases hBest
  exact Nat.le_trans hLength hLe

theorem best?_le (h : best? s rules = some (n, action)) : n ≤ s.length := by
  obtain ⟨rule, -, -, hRule⟩ := exists_rule h
  exact longest?_le hRule

/-- Of rules with matches of the same length, the search keeps the first. -/
theorem best?_earliest (h : best? s rules = some (n, action)) :
    Earliest (s.take n) rules action := by
  induction rules generalizing n action with
  | nil => cases h
  | cons rule rest ih =>
      -- A rule that does not get so far does not match, for it would get so far.
      have hFails {k : Option Nat} (hLongest : rule.pattern.longest? s = k)
          (hShort : ∀ m, k = some m → m < n) (hn : n ≤ s.length) :
          ¬ rule.pattern.Matches (s.take n) := by
        intro hMatches
        obtain ⟨m, hm, hLength⟩ := exists_longest? hMatches (s.drop n)
        rw [List.take_append_drop, hLongest] at hm
        have := hShort m hm
        rw [List.length_take] at hLength
        omega
      have hLength := best?_le h
      rw [best?] at h
      split at h
      · next hNone =>
          exact .later (hFails hNone (by simp) hLength) (ih h)
      · next hSome _ =>
          cases h
          exact .here (matches_of_longest? hSome)
      · next hSome hRest =>
          split at h
          · next hLess =>
              cases h
              exact .later (hFails hSome (by rintro m ⟨⟩; exact hLess) hLength) (ih hRest)
          · cases h
            exact .here (matches_of_longest? hSome)

/-- What the search finds is what longest match asks for. -/
theorem best?_munches (h : best? s rules = some (n, action)) :
    Munches rules (s.take n) (s.drop n) action := by
  refine ⟨best?_earliest h, fun rule hRule more beyond hRest hMatches => ?_⟩
  have hText : s = (s.take n ++ more) ++ beyond := by
    rw [List.append_assoc, ← hRest, List.take_append_drop]
  have hLe := le_of_best? h hRule hText hMatches
  rw [List.length_append, List.length_take, Nat.min_eq_left (best?_le h)] at hLe
  exact List.length_eq_zero_iff.mp (by omega)

/-- The search finds whatever longest match asks for. -/
theorem Munches.best?_eq (h : Munches rules lexeme rest action) :
    best? (lexeme ++ rest) rules = some (lexeme.length, action) := by
  obtain ⟨rule, hRule, -, hFits⟩ := h.earliest.exists_rule
  obtain ⟨k, hLongest, hLength⟩ := exists_longest? hFits rest
  obtain ⟨n, action', hBest, hLe⟩ := exists_best? hRule hLongest
  have hTaken : (lexeme ++ rest).take n = lexeme ++ rest.take (n - lexeme.length) := by
    rw [List.take_append, List.take_of_length_le (by omega)]
  have hMunches := best?_munches hBest
  rw [hTaken] at hMunches
  obtain ⟨other, hOther, -, hMatches⟩ := hMunches.earliest.exists_rule
  have hNothing := h.longest other hOther _ _ (List.take_append_drop _ _).symm hMatches
  have hn : n = lexeme.length := by
    have hBound := best?_le hBest
    have hZero := congrArg List.length hNothing
    simp only [List.length_append, List.length_take, List.length_nil] at hBound hZero
    omega
  rw [hNothing, List.append_nil] at hMunches
  rw [hBest, hn, hMunches.earliest.unique h.earliest]

/-- No rule matches the empty text. -/
theorem Munches.ne_nil {mode : Mode} (h : Munches (Lexicon.rules mode) lexeme rest action) :
    lexeme ≠ [] := by
  have hRules : ((Lexicon.rules mode).all fun rule => !rule.pattern.nullable) = true := by
    cases mode <;> decide
  rintro rfl
  obtain ⟨rule, hRule, -, hFits⟩ := h.earliest.exists_rule
  simpa [nullable_iff.mpr hFits] using List.all_eq_true.mp hRules rule hRule

/-- Every character is matched by some rule, whichever rules are in force. -/
theorem exists_munch (mode : Mode) (h : s ≠ []) :
    ∃ lexeme rest action, s = lexeme ++ rest ∧ Munches (Lexicon.rules mode) lexeme rest action := by
  obtain ⟨c, t, rfl⟩ := List.exists_cons_of_ne_nil h
  have hRule : ∃ rule ∈ Lexicon.rules mode, rule.pattern.Matches [c] := by
    cases mode with
    | code => exact ⟨⟨char fun _ => true, .skip⟩, by simp [Lexicon.rules, codeRules], .char rfl⟩
    | comment =>
        by_cases hStar : c = '*'
        · exact ⟨⟨char (· == '*'), .skip⟩, by simp [Lexicon.rules, commentRules],
            .char (by simp [hStar])⟩
        · refine ⟨⟨repeated (char (· != '*')), .skip⟩, by simp [Lexicon.rules, commentRules], ?_⟩
          exact .concat (s := [c]) (.char (by simp [hStar])) .done
  obtain ⟨rule, hRule, hMatches⟩ := hRule
  obtain ⟨k, hLongest, _⟩ := exists_longest? hMatches t
  obtain ⟨n, action, hBest, _⟩ := exists_best? hRule hLongest
  exact ⟨_, _, action, (List.take_append_drop n (c :: t)).symm, best?_munches hBest⟩

/-- The characters of a match that was dealt with are dropped. -/
theorem scan_skip (mode : Mode) (pos skip : Nat) (s : List Char) :
    scan mode pos skip s = scan mode (pos + skip) 0 (s.drop skip) := by
  induction s generalizing pos skip with
  | nil => simp [scan]
  | cons c s ih =>
      cases skip with
      | zero => rfl
      | succ k => rw [scan, ih, List.drop_succ_cons, Nat.add_right_comm, Nat.add_assoc]

/-- One step of the scanner takes what the rules in force take. -/
theorem Munches.scan_eq {mode : Mode} (h : Munches (Lexicon.rules mode) lexeme rest action)
    (pos : Nat) :
    scan mode pos 0 (lexeme ++ rest) =
      (action.token? (String.ofList lexeme) pos (pos + lexeme.length)).toList ++
        scan (action.next mode) (pos + lexeme.length) 0 rest := by
  have hBest := h.best?_eq
  obtain ⟨c, l, rfl⟩ := List.exists_cons_of_ne_nil h.ne_nil
  have hText : (c :: (l ++ rest)).take (l.length + 1) = c :: l := by
    rw [List.take_succ_cons, List.take_left]
  rw [List.cons_append, List.length_cons] at hBest
  rw [List.cons_append, scan, hBest]
  dsimp only
  rw [hText, scan_skip _ _ l.length, List.drop_left, List.length_cons, Nat.add_assoc,
    Nat.add_comm 1]

theorem Makes.token?_eq {text : String} {made : Option (Token.Kind × String)}
    (h : Makes action text made) (start stop : Nat) :
    action.token? text start stop = made.map fun word => ⟨word.1, word.2, start, stop⟩ := by
  cases h with
  | keyword reserved =>
      have hOther : text ≠ "true" ∧ text ≠ "false" := by
        constructor <;> rintro rfl <;> revert reserved <;> decide
      simp [Action.token?, classifyWord, hOther, reserved]
  | name free notTrue notFalse => simp [Action.token?, classifyWord, free, notTrue, notFalse]
  | _ => rfl

theorem exists_makes (action : Action) (text : String) : ∃ made, Makes action text made := by
  cases action with
  | skip => exact ⟨_, .skip text⟩
  | emit kind => exact ⟨_, .emit kind text⟩
  | openComment => exact ⟨_, .openComment text⟩
  | closeComment => exact ⟨_, .closeComment text⟩
  | word =>
      by_cases hTrue : text = "true"
      · exact hTrue ▸ ⟨_, .yes⟩
      · by_cases hFalse : text = "false"
        · exact hFalse ▸ ⟨_, .no⟩
        · by_cases hKeyword : text ∈ keywords
          · exact ⟨_, .keyword hKeyword⟩
          · exact ⟨_, .name hKeyword hTrue hFalse⟩

/-- The scanner gives the tokens by longest match. The induction is on the length
of the text, which every step shortens. -/
theorem scans_scan (mode : Mode) (pos : Nat) (s : List Char) :
    Scans mode pos s (scan mode pos 0 s) := by
  induction hLength : s.length using Nat.strong_induction_on generalizing mode pos s with
  | _ length ih =>
      by_cases hs : s = []
      · subst hs
        exact .done mode pos
      · obtain ⟨lexeme, rest, action, rfl, hMunches⟩ := exists_munch mode hs
        obtain ⟨made, hMade⟩ := exists_makes action (String.ofList lexeme)
        have hShorter : rest.length < length := by
          have hTaken := List.length_pos_iff.mpr hMunches.ne_nil
          rw [List.length_append] at hLength
          omega
        rw [hMunches.scan_eq, hMade.token?_eq]
        exact .next hMunches hMade (ih rest.length hShorter _ _ rest rfl)

theorem longest?_close (s : List Char) :
    (literal "*/").longest? ('*' :: s) = if s.head? = some '/' then some 2 else none := by
  have hDerivative : derivative '*' (literal "*/") = char (· == '/') := by
    simp [literal, Pattern.word, derivative, nullable, seq]
  have hNullable : (literal "*/").nullable = false := by decide
  rw [longest?_cons, hDerivative, hNullable]
  cases s with
  | nil => rfl
  | cons d s =>
      rw [longest?_char]
      by_cases hSlash : d = '/' <;> simp [hSlash]

/-- At an asterisk a comment ends, if a slash follows. -/
theorem best?_star (s : List Char) : best? ('*' :: s) (Lexicon.rules .comment) =
    if s.head? = some '/' then some (2, .closeComment) else some (1, .skip) := by
  have hOther : ('*' != '*') = false := rfl
  have hStar : ('*' == '*') = true := rfl
  simp only [Lexicon.rules, commentRules, best?, longest?_close, longest?_repeated, longest?_char,
    hOther, hStar]
  by_cases hSlash : s.head? = some '/' <;> simp [hSlash]

/-- In a comment, a character that does not begin its end is passed over. -/
theorem scan_comment_cons {c : Char} (h : c = '*' → s.head? ≠ some '/') (pos : Nat) :
    scan .comment pos 0 (c :: s) = scan .comment (pos + 1) 0 s := by
  by_cases hStar : c = '*'
  · subst hStar
    rw [scan, best?_star, if_neg (h rfl)]
    rfl
  · have hIdle : Mode.idle .comment c = true := by simpa [Mode.idle] using hStar
    rw [scan_eq_sweep, sweep_idle hIdle, ← scan_eq_sweep]

/-- A comment ends at the first place where it can. -/
theorem scan_comment_closed {inside : List Char} (h : ¬ ['*', '/'] <:+: inside ++ ['*'])
    (pos : Nat) (rest : List Char) :
    scan .comment pos 0 (inside ++ '*' :: '/' :: rest) =
      scan .code (pos + inside.length + 2) 0 rest := by
  induction inside generalizing pos with
  | nil =>
      rw [List.nil_append, scan, best?_star, if_pos List.head?_cons]
      rfl
  | cons c inside ih =>
      have hRest : ¬ ['*', '/'] <:+: inside ++ ['*'] :=
        fun hInfix => h (List.infix_cons hInfix)
      have hStar : c = '*' → (inside ++ '*' :: '/' :: rest).head? ≠ some '/' := by
        rintro rfl hSlash
        cases inside with
        | nil => simp at hSlash
        | cons d inside =>
            obtain rfl : d = '/' := Option.some.inj hSlash
            exact h ⟨[], inside ++ ['*'], rfl⟩
      rw [List.cons_append, scan_comment_cons hStar, ih hRest, List.length_cons]
      congr 1
      omega

end Lexicon

open Lexicon

end Reckoner
