import Reckoner.Proofs.Spacing

/-! Texts that come to nothing. Blanks, characters that begin no token and whole
comments leave the scanner where it was: no rule reaches over them, and the rules
outside comments are in force again after them. So two texts with such a stretch
between them are scanned apart, and the offsets of the second are moved. -/
namespace Reckoner

/-- The same token further on in a text. -/
def Token.shift (distance : Nat) (t : Token) : Token :=
  ⟨t.kind, t.text, t.start + distance, t.stop + distance⟩

namespace Pattern

/-- What follows two characters in a text that belongs. -/
theorem matches_after_two {p : Pattern} {c d : Char} {s : List Char}
    (h : p.Matches (c :: d :: s)) : (derivative d (derivative c p)).Matches s :=
  matches_derivative.mpr (matches_derivative.mpr h)

/-- Whether nothing but the empty text can belong, as far as the outermost shape
tells. -/
def isClosed : Pattern → Bool
  | never | empty => true
  | _ => false

/-- A pattern that is closed takes nothing more. -/
theorem eq_nil_of_isClosed {p : Pattern} {s : List Char} (hClosed : p.isClosed = true)
    (h : p.Matches s) : s = [] := by
  cases p with
  | never => exact absurd h not_matches_never
  | empty => exact matches_empty.mp h
  | _ => cases hClosed

end Pattern

namespace Lexicon

open Pattern

/-- Some rule makes a token of a text that begins with this character. -/
def BeginsToken (c : Char) : Prop :=
  ∃ rule ∈ codeRules, ∃ rest word, rule.pattern.Matches (c :: rest) ∧
    Makes rule.action (String.ofList (c :: rest)) (some word)

/-- No token begins with a character that only skipping rules start with. -/
theorem not_beginsToken {c : Char}
    (h : (codeRules.all fun rule => rule.action == .skip || !rule.pattern.starts c) = true) :
    ¬ BeginsToken c := by
  rintro ⟨rule, hRule, rest, word, hMatches, hMakes⟩
  have hNone := List.all_eq_true.mp h rule hRule
  rw [starts_of_matches hMatches, Bool.not_true, Bool.or_false, beq_iff_eq] at hNone
  rw [hNone] at hMakes
  cases hMakes

/-- A slash by itself is an operator, so it is no junk. -/
theorem beginsToken_slash : BeginsToken '/' := by
  refine ⟨⟨oneOf ['-', '+', '*', '%', '^', '=', '<', '>', '!', '|', '&', '/', '√'],
    .emit .operator⟩, by simp [codeRules], [], (.operator, "/"), .char (by decide), ?_⟩
  exact .emit .operator "/"

/-- Texts that come to nothing: a sequence of blanks, of characters that begin no
token, of comments up to the end of a line and with the character that ends it,
and of comments that are closed, each at the first place where it can be. -/
inductive Filler : List Char → Prop where
  | nil : Filler []
  | blank {c : Char} {s : List Char} (isBlank : isBlank c = true) (rest : Filler s) :
      Filler (c :: s)
  | junk {c : Char} {s : List Char} (idle : ¬ BeginsToken c) (rest : Filler s) : Filler (c :: s)
  | line {inside s : List Char} {c : Char} (within : ∀ d ∈ inside, isLineEnd d = false)
      (ends : isLineEnd c = true) (rest : Filler s) :
      Filler ('/' :: '/' :: inside ++ c :: s)
  | comment {inside s : List Char} (closed : ¬ ['*', '/'] <:+: inside ++ ['*'])
      (rest : Filler s) : Filler ('/' :: '*' :: inside ++ '*' :: '/' :: s)

/-- What ends a line is a blank in the next one. -/
theorem isBlank_of_isLineEnd {c : Char} (h : isLineEnd c = true) : isBlank c = true := by
  simp only [isLineEnd, Bool.and_eq_true, decide_eq_true_eq] at h
  simp only [isBlank, Bool.or_eq_true, Bool.and_eq_true, decide_eq_true_eq]
  omega

/-- A blank comes to nothing, alone or in a row. -/
theorem scan_blank {c : Char} (h : isBlank c = true) (pos : Nat) (s : List Char) :
    scan .code pos 0 (c :: s) = scan .code (pos + 1) 0 s := by
  have hIdle : Mode.idle .code c = true := h
  rw [scan_eq_sweep, sweep_idle hIdle, ← scan_eq_sweep]

/-- The rules that make tokens. -/
def loud : List Rule := (codeRules.drop 3).dropLast

theorem codeRules_eq_loud :
    codeRules = codeRules.take 3 ++ (loud ++ [⟨char fun _ => true, .skip⟩]) := rfl

/-- All rules but those for blanks and comments and the last make tokens. -/
theorem exists_makes_of_loud {rule : Rule} (hRule : rule ∈ loud) (text : String) :
    ∃ word, Makes rule.action text (some word) := by
  have hActions : ∀ rule ∈ loud, rule.action ≠ .skip ∧ rule.action ≠ .openComment ∧
      rule.action ≠ .closeComment := by decide
  obtain ⟨hSkip, hOpen, hClose⟩ := hActions rule hRule
  obtain ⟨made, hMakes⟩ := exists_makes rule.action text
  cases made with
  | some word => exact ⟨word, hMakes⟩
  | none =>
      generalize rule.action = action at hMakes hSkip hOpen hClose
      cases hMakes with
      | skip => exact absurd rfl hSkip
      | openComment => exact absurd rfl hOpen
      | closeComment => exact absurd rfl hClose

/-- A character that begins no token begins a row of blanks or is skipped alone,
for comments begin with a slash. -/
theorem blank_or_skipped {rule : Rule} (hRule : rule ∈ codeRules) {c : Char} {s : List Char}
    (hMatches : rule.pattern.Matches (c :: s)) (h : ¬ BeginsToken c) :
    isBlank c = true ∨ (rule.action = .skip ∧ s = []) := by
  have hSlash : c ≠ '/' := by
    rintro rfl
    exact h beginsToken_slash
  have hWhole := hRule
  rw [codeRules_eq_loud] at hRule
  rcases List.mem_append.mp hRule with hFirst | hRule
  · have hStarts := starts_of_matches hMatches
    simp only [codeRules, List.take_succ_cons, List.take_zero, List.mem_cons, List.not_mem_nil,
      or_false] at hFirst
    rcases hFirst with rfl | rfl | rfl
    · exact .inl (by simpa [repeated, starts, nullable] using hStarts)
    · exact absurd (by simpa [literal, Pattern.word, starts, nullable] using hStarts) hSlash
    · exact absurd (by simpa [literal, Pattern.word, starts, nullable] using hStarts) hSlash
  · rcases List.mem_append.mp hRule with hLoud | hLast
    · obtain ⟨word, hMakes⟩ := exists_makes_of_loud hLoud (String.ofList (c :: s))
      exact absurd ⟨rule, hWhole, s, word, hMatches, hMakes⟩ h
    · rw [List.mem_singleton.mp hLast] at hMatches ⊢
      obtain ⟨d, -, hSingle⟩ := matches_char.mp hMatches
      exact .inr ⟨rfl, (List.cons.inj hSingle).2⟩

/-- A character that begins no token comes to nothing. -/
theorem scan_junk {c : Char} (h : ¬ BeginsToken c) (pos : Nat) (s : List Char) :
    scan .code pos 0 (c :: s) = scan .code (pos + 1) 0 s := by
  cases hBlank : isBlank c with
  | true => exact scan_blank hBlank pos s
  | false =>
      obtain ⟨lexeme, rest, action, hText, hMunches⟩ := exists_munch .code (List.cons_ne_nil c s)
      obtain ⟨d, more, rfl⟩ := List.exists_cons_of_ne_nil hMunches.ne_nil
      obtain ⟨rfl, rfl⟩ := List.cons.inj hText
      obtain ⟨rule, hRule, rfl, hMatches⟩ := hMunches.earliest.exists_rule
      obtain ⟨hSkip, rfl⟩ :=
        (blank_or_skipped hRule hMatches h).resolve_left (Bool.eq_false_iff.mp hBlank)
      rw [hText, hMunches.scan_eq, hSkip]
      rfl

/-- A comment to the end of a line is one match. Of the rules, only its own takes
what begins with two slashes. -/
theorem munches_line {inside : List Char} {c : Char} (hInside : ∀ d ∈ inside, isLineEnd d = false)
    (hEnd : isLineEnd c = true) (s : List Char) :
    Munches codeRules ('/' :: '/' :: inside) (c :: s) .skip := by
  have hOthers : ∀ rule ∈ codeRules.take 1 ++ codeRules.drop 2,
      (derivative '/' (derivative '/' rule.pattern)).isClosed = true := by decide
  have hBlanks : ¬ (repeated (char isBlank)).Matches ('/' :: '/' :: inside) := by
    intro hMatches
    exact absurd ((matches_repeated_char.mp hMatches).2 '/' List.mem_cons_self) (by decide)
  refine ⟨.later hBlanks (.here (matches_lineComment.mpr ⟨inside, rfl, hInside⟩)), ?_⟩
  intro rule hRule more beyond hRest hMatches
  have hOther (hRule : rule ∈ codeRules.take 1 ++ codeRules.drop 2) : more = [] :=
    (List.append_eq_nil_iff.mp
      (eq_nil_of_isClosed (hOthers rule hRule) (matches_after_two hMatches))).2
  rcases List.mem_cons.mp hRule with rfl | hRule
  · exact hOther List.mem_cons_self
  · rcases List.mem_cons.mp hRule with rfl | hRule
    · obtain ⟨rest, hText, hLine⟩ := matches_lineComment.mp hMatches
      obtain rfl : inside ++ more = rest := (List.cons.inj (List.cons.inj hText).2).2
      cases more with
      | nil => rfl
      | cons d more =>
          -- The comment would go on over the end of its line.
          obtain ⟨rfl, -⟩ := List.cons.inj hRest
          have hWithin := hLine c (List.mem_append_right _ List.mem_cons_self)
          rw [hEnd] at hWithin
          cases hWithin
    · exact hOther (List.mem_cons_of_mem _ hRule)

/-- No rule takes more than the opening of a comment where one stands. -/
theorem munches_open (s : List Char) : Munches codeRules ['/', '*'] s .openComment := by
  have hClosed : ∀ rule ∈ codeRules,
      (derivative '*' (derivative '/' rule.pattern)).isClosed = true := by decide
  have hBest : best? ['/', '*'] codeRules = some (2, .openComment) := by decide
  refine ⟨best?_earliest hBest, fun rule hRule more beyond _ hMatches => ?_⟩
  exact eq_nil_of_isClosed (hClosed rule hRule) (matches_after_two hMatches)

/-- Nothing of a filler reaches what comes after it. -/
theorem Filler.scan_append {s : List Char} (h : Filler s) (pos : Nat) (v : List Char) :
    scan .code pos 0 (s ++ v) = scan .code (pos + s.length) 0 v := by
  induction h generalizing pos with
  | nil => rfl
  | blank hBlank _ ih =>
      rw [List.cons_append, scan_blank hBlank, ih, List.length_cons, Nat.add_assoc, Nat.add_comm 1]
  | junk idle _ ih =>
      rw [List.cons_append, scan_junk idle, ih, List.length_cons, Nat.add_assoc, Nat.add_comm 1]
  | @line inside s c within ends _ ih =>
      have hMunches : Munches (rules .code) _ _ .skip := munches_line within ends (s ++ v)
      have hText : ('/' :: '/' :: inside ++ c :: s) ++ v =
          '/' :: '/' :: inside ++ c :: (s ++ v) := by
        simp
      have hSkipped : Action.token? .skip (String.ofList ('/' :: '/' :: inside)) pos
          (pos + ('/' :: '/' :: inside).length) = none := rfl
      have hNext : Action.next .skip .code = .code := rfl
      rw [hText, hMunches.scan_eq, hSkipped, hNext, scan_blank (isBlank_of_isLineEnd ends), ih]
      simp only [Option.toList_none, List.nil_append, List.length_append, List.length_cons]
      congr 1
      omega
  | @comment inside s closed _ ih =>
      have hMunches : Munches (rules .code) ['/', '*'] _ .openComment :=
        munches_open (inside ++ '*' :: '/' :: (s ++ v))
      have hText : ('/' :: '*' :: inside ++ '*' :: '/' :: s) ++ v =
          ['/', '*'] ++ (inside ++ '*' :: '/' :: (s ++ v)) := by simp
      have hOpened : Action.token? .openComment (String.ofList ['/', '*']) pos
          (pos + ['/', '*'].length) = none := rfl
      have hNext : Action.next .openComment .code = .comment := rfl
      rw [hText, hMunches.scan_eq, hOpened, hNext, scan_comment_closed closed, ih]
      simp only [Option.toList_none, List.nil_append, List.length_append, List.length_cons,
        List.length_nil]
      congr 1
      omega

/-- Where a text is scanned shows in the offsets and nowhere else. -/
theorem scan_shift (mode : Mode) (pos distance skip : Nat) (s : List Char) :
    scan mode (pos + distance) skip s = (scan mode pos skip s).map (Token.shift distance) := by
  induction s generalizing mode pos skip with
  | nil => rfl
  | cons c s ih =>
      have hStep (mode : Mode) (skip : Nat) : scan mode (pos + distance + 1) skip s =
          (scan mode (pos + 1) skip s).map (Token.shift distance) := by
        rw [Nat.add_right_comm, ih]
      cases skip with
      | succ k => exact hStep mode k
      | zero =>
          rcases hBest : best? (c :: s) (rules mode) with _ | ⟨_ | n, action⟩
          · simp only [scan, hBest, hStep]
          · simp only [scan, hBest, hStep]
          · simp only [scan, hBest, hStep, List.map_append]
            congr 1
            rw [Nat.add_right_comm]
            cases action <;> rfl

/-- A text that comes to nothing and begins a new line. -/
def IsInterlude (s : String) : Prop := ∃ rest, s.toList = '\n' :: rest ∧ Filler rest

end Lexicon

open Lexicon

/-- Two texts with an interlude between them are scanned one after the other, as
long as the first does not end inside a block comment. The offsets of the second
text are moved by the length of what stands before it. -/
theorem tokenize_interlude (u s v : String) (hu : endsInComment u = false) (hs : IsInterlude s) :
    tokenize (u ++ s ++ v) =
      (tokenize u).dropLast ++ (tokenize v).map (Token.shift (u.length + s.length)) := by
  obtain ⟨rest, hLine, hFiller⟩ := hs
  have hCode := sweep_mode_of_endsInComment hu
  have hLength : s.length = rest.length + 1 := by
    rw [← String.length_toList, hLine, List.length_cons]
  have hText : (u ++ s ++ v).toList = u.toList ++ '\n' :: (rest ++ v.toList) := by
    rw [String.toList_append, String.toList_append, hLine, List.append_assoc]
    rfl
  have hAfter : scan .code (0 + u.toList.length) 0 ('\n' :: (rest ++ v.toList)) =
      (scan .code 0 0 v.toList).map (Token.shift (u.length + s.length)) := by
    rw [scan_blank (by decide), hFiller.scan_append, ← scan_shift, hLength, String.length_toList]
    congr 1
    omega
  have hEnd : Token.finish (u ++ s ++ v).length =
      Token.shift (u.length + s.length) (Token.finish v.length) := by
    rw [String.length_append, String.length_append, Token.finish, Token.finish, Token.shift,
      Nat.add_comm]
  rw [tokenize, tokenize, tokenize, List.dropLast_concat, hText, scan_eq_sweep,
    sweep_append 0 _ (Nat.zero_le _) hCode, ← scan_eq_sweep, ← scan_eq_sweep, hAfter, hEnd,
    List.append_assoc, List.map_append]
  rfl

/-- Junk, a closed comment with a slash and asterisks in it, and a comment to the
end of the line that does not open another one. -/
def interlude : String := "\n@/*/é**///*\né "

theorem isInterlude_interlude : IsInterlude interlude := by
  have hClosed : ¬ ['*', '/'] <:+: ['/', 'é', '*'] ++ ['*'] := by decide
  have hJunk : Filler ['é', ' '] := .junk (not_beginsToken (by decide)) (.blank (by decide) .nil)
  have hLine : Filler ('/' :: '/' :: ['*'] ++ '\n' :: ['é', ' ']) :=
    .line (List.forall_mem_singleton.mpr (by decide)) (by decide) hJunk
  have hAt : ¬ BeginsToken '@' := not_beginsToken (by decide)
  exact ⟨_, by decide, .junk hAt (.comment hClosed hLine)⟩

/-- The first text ends in a comment of its own, which the line feed closes, and
the second one is left with an open one. Neither has anything to do with the
comments between them. -/
theorem tokenize_interlude_commented :
    endsInComment "a/ //b" = false ∧ IsInterlude interlude ∧
    tokenize ("a/ //b" ++ interlude ++ ".5/*") =
      [⟨.name, "a", 0, 1⟩, ⟨.operator, "/", 1, 2⟩, ⟨.number, ".5", 21, 23⟩,
        ⟨.finish, "", 25, 25⟩] := by
  have hCode : endsInComment "a/ //b" = false := by decide +kernel
  refine ⟨hCode, isInterlude_interlude, ?_⟩
  rw [tokenize_interlude "a/ //b" interlude ".5/*" hCode isInterlude_interlude]
  decide +kernel

end Reckoner
