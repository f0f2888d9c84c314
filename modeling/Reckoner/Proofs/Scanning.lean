import Reckoner.Proofs.Lookahead
import Mathlib.Tactic.IntervalCases

/-! Scanning is local. A line feed cuts a text in two: what stands before it is
scanned as if the text ended there, unless it ends inside a block comment, and
what stands after it as if the text began there. -/
namespace Reckoner

namespace Pattern

/-- Whether no text that belongs has a certain character in it. -/
def avoids (d : Char) : Pattern → Bool
  | never | empty => true
  | char accepts => !accepts d
  | concat p q | either p q => p.avoids d && q.avoids d
  | many p => p.avoids d

/-- Whether a text that belongs may begin with a certain character. -/
def starts (d : Char) : Pattern → Bool
  | never | empty => false
  | char accepts => accepts d
  | concat p q => p.starts d || (p.nullable && q.starts d)
  | either p q => p.starts d || q.starts d
  | many p => p.starts d

variable {c d : Char} {p q : Pattern}

/-- After a character with which nothing begins, nothing belongs. Induction over
the pattern. -/
theorem derivative_of_not_starts (h : p.starts c = false) : derivative c p = never := by
  induction p with
  | never => rfl
  | empty => rfl
  | char accepts => simp_all [starts, derivative]
  | concat p q ihp ihq =>
      simp only [starts, Bool.or_eq_false_iff, Bool.and_eq_false_iff] at h
      rw [derivative, ihp h.1]
      split
      · next hNullable =>
          rw [ihq (h.2.resolve_left (by simp [hNullable]))]
          rfl
      · rfl
  | either p q ihp ihq =>
      simp only [starts, Bool.or_eq_false_iff] at h
      rw [derivative, ihp h.1, ihq h.2]
      rfl
  | many p ih => rw [derivative, ih h]; rfl

/-- What occurs nowhere does not come first. -/
theorem not_starts_of_avoids (h : p.avoids d = true) : p.starts d = false := by
  induction p with
  | never => rfl
  | empty => rfl
  | char accepts => simpa [avoids, starts] using h
  | concat p q ihp ihq =>
      simp only [avoids, Bool.and_eq_true] at h
      rw [starts, ihp h.1, ihq h.2, Bool.and_false, Bool.or_false]
  | either p q ihp ihq =>
      simp only [avoids, Bool.and_eq_true] at h
      rw [starts, ihp h.1, ihq h.2, Bool.or_false]
  | many p ih => exact ih h

theorem avoids_seq (hp : p.avoids d = true) (hq : q.avoids d = true) :
    (seq p q).avoids d = true := by
  cases p <;> simp_all [seq, avoids]

theorem avoids_alt (hp : p.avoids d = true) (hq : q.avoids d = true) :
    (alt p q).avoids d = true := by
  cases p <;> cases q <;> simp_all [alt, avoids]

/-- What remains of a pattern after a character avoids what the pattern avoids. -/
theorem avoids_derivative (c : Char) (h : p.avoids d = true) :
    (derivative c p).avoids d = true := by
  induction p with
  | never => rfl
  | empty => rfl
  | char accepts =>
      rw [derivative]
      split <;> rfl
  | concat p q ihp ihq =>
      simp only [avoids, Bool.and_eq_true] at h
      rw [derivative]
      split
      · exact avoids_alt (avoids_seq (ihp h.1) h.2) (ihq h.2)
      · exact avoids_seq (ihp h.1) h.2
  | either p q ihp ihq =>
      simp only [avoids, Bool.and_eq_true] at h
      exact avoids_alt (ihp h.1) (ihq h.2)
  | many p ih => exact avoids_seq (ih h) h

theorem longest?_never (s : List Char) : never.longest? s = none := by
  cases s <;> rfl

/-- Where a text cannot go on, only the empty beginning may belong. -/
theorem longest?_of_not_starts (h : p.starts c = false) (s : List Char) :
    p.longest? (c :: s) = if p.nullable then some 0 else none := by
  rw [longest?, derivative_of_not_starts h, longest?_never]
  split
  · next hNever =>
      cases p with
      | never => rfl
      | _ => cases hNever
  · rfl

/-- What comes after a character that a pattern avoids does not matter. -/
theorem longest?_append (h : p.avoids d = true) (s v : List Char) :
    p.longest? (s ++ d :: v) = p.longest? s := by
  induction s generalizing p with
  | nil =>
      rw [List.nil_append, longest?_of_not_starts (not_starts_of_avoids h), longest?]
  | cons c s ih => rw [List.cons_append, longest?, longest?, ih (avoids_derivative c h)]

/-- A match lies within the text. -/
theorem longest?_le {s : List Char} {n : Nat} (h : p.longest? s = some n) : n ≤ s.length := by
  induction s generalizing p n with
  | nil =>
      rw [longest?] at h
      split at h
      · cases h
        exact Nat.le_refl 0
      · cases h
  | cons c s ih =>
      rw [longest?] at h
      split at h
      · cases h
      · cases hRest : (derivative c p).longest? s with
        | some k =>
            rw [hRest] at h
            cases h
            exact Nat.succ_le_succ (ih hRest)
        | none =>
            rw [hRest] at h
            have hEmpty : n = 0 := by
              cases hNullable : p.nullable <;> simp_all
            exact hEmpty ▸ Nat.zero_le _

theorem longest?_empty (s : List Char) : empty.longest? s = some 0 := by
  cases s with
  | nil => rfl
  | cons c s => rw [longest?_of_not_starts rfl]; rfl

theorem longest?_char (accepts : Char → Bool) (c : Char) (s : List Char) :
    (char accepts).longest? (c :: s) = if accepts c then some 1 else none := by
  cases h : accepts c with
  | true => simp [longest?, isNever, nullable, derivative, h, longest?_empty]
  | false => rw [longest?_of_not_starts (show (char accepts).starts c = false from h)]; rfl

/-- A pattern for rows of characters takes as many as it accepts. -/
theorem longest?_many (accepts : Char → Bool) (s : List Char) :
    (many (char accepts)).longest? s = some (s.takeWhile accepts).length := by
  induction s with
  | nil => rfl
  | cons c s ih =>
      cases h : accepts c with
      | true => simp [longest?, isNever, derivative, h, seq, ih]
      | false =>
          have hStarts : (many (char accepts)).starts c = false := h
          simp [longest?_of_not_starts hStarts, nullable, h]

/-- A pattern for rows that are not empty needs a first character that it
accepts, and takes the whole row. -/
theorem longest?_repeated (accepts : Char → Bool) (c : Char) (s : List Char) :
    (repeated (char accepts)).longest? (c :: s) =
      if accepts c then some ((s.takeWhile accepts).length + 1) else none := by
  cases h : accepts c with
  | true => simp [repeated, longest?, isNever, nullable, derivative, h, seq, longest?_many]
  | false => rw [longest?_of_not_starts (by simp [repeated, starts, nullable, h])]; rfl

end Pattern

namespace Lexicon

open Pattern

/-- The choice between rules depends on the lengths of their matches only. -/
theorem best?_congr {s s' : List Char} {rules : List Rule}
    (h : ∀ rule ∈ rules, rule.pattern.longest? s' = rule.pattern.longest? s) :
    best? s' rules = best? s rules := by
  induction rules with
  | nil => rfl
  | cons rule rest ih =>
      rw [best?, best?, h rule List.mem_cons_self,
        ih fun other hOther => h other (List.mem_cons_of_mem _ hOther)]

/-- Rules that do not match may be left out. -/
theorem best?_append_of_none {s : List Char} {rules more : List Rule}
    (h : ∀ rule ∈ rules, rule.pattern.longest? s = none) :
    best? s (rules ++ more) = best? s more := by
  induction rules with
  | nil => rfl
  | cons rule rest ih =>
      rw [List.cons_append, best?, h rule List.mem_cons_self]
      exact ih fun other hOther => h other (List.mem_cons_of_mem _ hOther)

/-- The best match is a match of one of the rules. -/
theorem exists_rule {s : List Char} {rules : List Rule} {n : Nat} {action : Action}
    (h : best? s rules = some (n, action)) :
    ∃ rule ∈ rules, rule.action = action ∧ rule.pattern.longest? s = some n := by
  induction rules generalizing n action with
  | nil => cases h
  | cons rule rest ih =>
      have hLater {m : Nat} {later : Action} (hRest : best? s rest = some (m, later)) :
          ∃ other ∈ rule :: rest, other.action = later ∧ other.pattern.longest? s = some m := by
        obtain ⟨other, hOther, hMatch⟩ := ih hRest
        exact ⟨other, List.mem_cons_of_mem _ hOther, hMatch⟩
      rw [best?] at h
      split at h
      · exact hLater h
      · next hHere _ =>
          cases h
          exact ⟨rule, List.mem_cons_self, rfl, hHere⟩
      · next hHere hRest =>
          split at h
          · cases h
            exact hLater hRest
          · cases h
            exact ⟨rule, List.mem_cons_self, rfl, hHere⟩

/-- The characters that come to nothing, one by one or in a row: blanks, and in a
comment all but the asterisk. -/
def Mode.idle : Mode → Char → Bool
  | .code, c => isBlank c
  | .comment, c => c != '*'

def blanks : List Char := ['\t', '\n', '\x0b', '\x0c', '\r', ' ']

/-- Blanks are few enough to be listed, so what is said of all of them is
decided. -/
theorem mem_blanks {c : Char} (h : isBlank c = true) : c ∈ blanks := by
  simp only [isBlank, Bool.or_eq_true, Bool.and_eq_true, decide_eq_true_eq, beq_iff_eq] at h
  rcases h with ⟨hLow, hHigh⟩ | rfl
  · rw [← Char.ofNat_toNat c]
    generalize c.toNat = n at hLow hHigh ⊢
    interval_cases n <;> decide
  · decide

/-- The rules between the first, which takes blanks, and the last, which takes
anything. -/
def inner : List Rule := codeRules.tail.dropLast

theorem codeRules_eq : codeRules =
    ⟨repeated (char isBlank), .skip⟩ :: (inner ++ [⟨char fun _ => true, .skip⟩]) := rfl

/-- A row of idle characters is one match. -/
theorem best?_idle {mode : Mode} {c : Char} (h : mode.idle c = true) (s : List Char) :
    best? (c :: s) (rules mode) = some ((s.takeWhile mode.idle).length + 1, .skip) := by
  cases mode with
  | code =>
      have hNullable : ∀ rule ∈ inner, rule.pattern.nullable = false := by decide
      have hStarts : (blanks.all fun c => inner.all fun rule => !rule.pattern.starts c) = true := by
        decide
      have hInner (rule : Rule) (hRule : rule ∈ inner) :
          rule.pattern.longest? (c :: s) = none := by
        have hRules := List.all_eq_true.mp hStarts c (mem_blanks h)
        have hStart : rule.pattern.starts c = false := by
          simpa using List.all_eq_true.mp hRules rule hRule
        rw [longest?_of_not_starts hStart, hNullable rule hRule]
        rfl
      have hBlank : isBlank c = true := h
      rw [rules, codeRules_eq, best?, best?_append_of_none hInner, longest?_repeated, if_pos hBlank]
      simp only [best?, longest?_char]
      rfl
  | comment =>
      have hOther : (c != '*') = true := h
      have hStar : (c == '*') = false := by simpa using hOther
      have hClose : (literal "*/").longest? (c :: s) = none :=
        longest?_of_not_starts (p := literal "*/")
          (by simp [literal, Pattern.word, starts, nullable, hStar]) s
      simp only [rules, commentRules, best?, hClose, longest?_repeated, longest?_char, hOther,
        hStar]
      rfl

/-- At any other character, the rest of the text matters up to a line feed only. -/
theorem best?_append {mode : Mode} {c : Char} (h : mode.idle c = false) (s v : List Char) :
    best? (c :: s ++ '\n' :: v) (rules mode) = best? (c :: s) (rules mode) := by
  apply best?_congr
  cases mode with
  | code =>
      have hBlank : isBlank c = false := h
      have hInner : ∀ rule ∈ inner, rule.pattern.avoids '\n' = true := by decide
      rw [rules, codeRules_eq]
      simp only [List.forall_mem_cons, List.forall_mem_append, List.cons_append, longest?_repeated,
        longest?_char, hBlank]
      refine ⟨rfl, fun rule hRule => ?_, trivial, fun _ hNone => absurd hNone List.not_mem_nil⟩
      rw [← List.cons_append]
      exact longest?_append (hInner rule hRule) (c :: s) v
  | comment =>
      have hClose : (literal "*/").avoids '\n' = true := by decide
      have hStar : (c != '*') = false := h
      simp only [rules, commentRules, List.forall_mem_cons, List.cons_append, longest?_repeated,
        longest?_char, hStar]
      refine ⟨?_, rfl, trivial, fun _ hNone => absurd hNone List.not_mem_nil⟩
      exact longest?_append hClose (c :: s) v

/-- The tokens of a text as `scan` gives them, and the rules in force at its end. -/
def sweep (mode : Mode) (pos skip : Nat) : List Char → List Token × Mode
  | [] => ([], mode)
  | c :: rest =>
    match skip with
    | k + 1 => sweep mode (pos + 1) k rest
    | 0 =>
      match best? (c :: rest) (rules mode) with
      | some (n + 1, action) =>
        let text := String.ofList ((c :: rest).take (n + 1))
        let after := sweep (action.next mode) (pos + 1) n rest
        ((action.token? text pos (pos + (n + 1))).toList ++ after.1, after.2)
      | _ => sweep mode (pos + 1) 0 rest

/-- Keeping track of the rules in force adds nothing to the tokens. -/
theorem scan_eq_sweep (mode : Mode) (pos skip : Nat) (s : List Char) :
    scan mode pos skip s = (sweep mode pos skip s).1 := by
  induction s generalizing mode pos skip with
  | nil => rfl
  | cons c rest ih =>
      cases skip with
      | succ k => exact ih mode (pos + 1) k
      | zero =>
          rcases hBest : best? (c :: rest) (rules mode) with _ | ⟨_ | n, action⟩ <;>
            simp only [scan, sweep, hBest, ih]

/-- The step at a match: its token if there is one, and then the rest under the
rules that follow. -/
theorem sweep_match {mode : Mode} {c : Char} {s : List Char} {n : Nat} {action : Action}
    (h : best? (c :: s) (rules mode) = some (n + 1, action)) (pos : Nat) :
    sweep mode pos 0 (c :: s) =
      ((action.token? (String.ofList ((c :: s).take (n + 1))) pos (pos + (n + 1))).toList ++
        (sweep (action.next mode) (pos + 1) n s).1,
      (sweep (action.next mode) (pos + 1) n s).2) := by
  simp only [sweep, h]

/-- Without a match one character is passed over. -/
theorem sweep_of_no_match {mode : Mode} {c : Char} {s : List Char}
    (h : ∀ n action, best? (c :: s) (rules mode) ≠ some (n + 1, action)) (pos : Nat) :
    sweep mode pos 0 (c :: s) = sweep mode (pos + 1) 0 s := by
  rw [sweep]
  split
  · next n action hBest => exact absurd hBest (h n action)
  · rfl

/-- Whether a text ends inside a block comment. -/
def endsInComment (text : String) : Bool := (sweep .code 0 0 text.toList).2 == .comment

/-- Outside of comments the rules for code are in force. -/
theorem sweep_mode_of_endsInComment {text : String} (h : endsInComment text = false) :
    (sweep .code 0 0 text.toList).2 = .code := by
  rw [endsInComment] at h
  cases hMode : (sweep .code 0 0 text.toList).2 with
  | code => rfl
  | comment => simp [hMode] at h

/-- At an idle character, a match takes the whole row. -/
theorem sweep_row {mode : Mode} {c : Char} (h : mode.idle c = true) (pos : Nat) (s : List Char) :
    sweep mode pos 0 (c :: s) = sweep mode (pos + 1) (s.takeWhile mode.idle).length s := by
  simp only [sweep, best?_idle h]
  rfl

/-- Idle characters may as well be passed over one by one. -/
theorem sweep_idle {mode : Mode} {c : Char} (h : mode.idle c = true) (pos : Nat) (s : List Char) :
    sweep mode pos 0 (c :: s) = sweep mode (pos + 1) 0 s := by
  rw [sweep_row h]
  cases s with
  | nil => rfl
  | cons d s =>
      cases hd : mode.idle d with
      | false => simp [hd]
      | true =>
          rw [sweep_row hd, List.takeWhile_cons_of_pos hd, List.length_cons]
          rfl

/-- A line feed cuts the text, if no comment is open there. The induction is on
what stands before it. -/
theorem sweep_append {mode : Mode} {skip : Nat} {u : List Char} (pos : Nat) (v : List Char)
    (hSkip : skip ≤ u.length) (hCode : (sweep mode pos skip u).2 = .code) :
    sweep mode pos skip (u ++ '\n' :: v) =
      ((sweep mode pos skip u).1 ++ (sweep .code (pos + u.length) 0 ('\n' :: v)).1,
        (sweep .code (pos + u.length) 0 ('\n' :: v)).2) := by
  induction u generalizing mode pos skip with
  | nil =>
      obtain rfl : skip = 0 := Nat.le_zero.mp hSkip
      obtain rfl : mode = .code := hCode
      rfl
  | cons c u ih =>
      have hEnd : pos + (c :: u).length = pos + 1 + u.length := by
        rw [List.length_cons]
        omega
      rw [hEnd]
      cases skip with
      | succ k => exact ih (pos + 1) (Nat.le_of_succ_le_succ hSkip) hCode
      | zero =>
          cases hIdle : mode.idle c with
          | true =>
              rw [List.cons_append, sweep_idle hIdle, sweep_idle hIdle]
              rw [sweep_idle hIdle] at hCode
              exact ih (pos + 1) (Nat.zero_le _) hCode
          -- A match at this character ends before the line feed, so it is the same in both texts.
          | false =>
              have hSame := best?_append hIdle u v
              rw [List.cons_append] at hSame ⊢
              by_cases hMatch : ∃ n action, best? (c :: u) (rules mode) = some (n + 1, action)
              · obtain ⟨n, action, hBest⟩ := hMatch
                obtain ⟨rule, -, -, hRule⟩ := exists_rule hBest
                have hTaken : n ≤ u.length := Nat.le_of_succ_le_succ (longest?_le hRule)
                have hText : (c :: (u ++ '\n' :: v)).take (n + 1) = (c :: u).take (n + 1) := by
                  rw [List.take_succ_cons, List.take_succ_cons,
                    List.take_append_of_le_length hTaken]
                rw [sweep_match hBest] at hCode ⊢
                rw [sweep_match (hSame.trans hBest), hText, ih (pos + 1) hTaken hCode,
                  List.append_assoc]
              · have hNone (n : Nat) (action : Action) :
                    best? (c :: u) (rules mode) ≠ some (n + 1, action) :=
                  fun hBest => hMatch ⟨n, action, hBest⟩
                rw [sweep_of_no_match hNone] at hCode ⊢
                rw [sweep_of_no_match (hSame ▸ hNone)]
                exact ih (pos + 1) (Nat.zero_le _) hCode

/-- Where a text is scanned makes no difference to the shape of its tokens. -/
theorem scan_sameShape (mode : Mode) (pos pos' skip : Nat) (s : List Char) :
    SameShape (scan mode pos skip s) (scan mode pos' skip s) := by
  induction s generalizing mode pos pos' skip with
  | nil => rfl
  | cons c s ih =>
      cases skip with
      | succ k => exact ih mode (pos + 1) (pos' + 1) k
      | zero =>
          rcases hBest : best? (c :: s) (rules mode) with _ | ⟨_ | n, action⟩
          · simpa only [scan, hBest] using ih mode (pos + 1) (pos' + 1) 0
          · simpa only [scan, hBest] using ih mode (pos + 1) (pos' + 1) 0
          · simp only [scan, hBest]
            rw [SameShape, List.map_append, List.map_append,
              ih (action.next mode) (pos + 1) (pos' + 1) n]
            congr 1
            cases action <;> rfl

theorem classifyWord_not_finish (text : String) : (classifyWord text).1 ≠ .finish := by
  unfold classifyWord
  split
  · simp
  · split
    · simp
    · split <;> simp

/-- Tokens that come from the text do not mark its end. -/
theorem Action.not_finish {action : Action} (h : action ≠ .emit .finish) {text : String}
    {start stop : Nat} {t : Token} (ht : action.token? text start stop = some t) :
    t.isFinish = false := by
  cases action with
  | emit kind =>
      cases ht
      simpa [Token.isFinish] using h
  | word =>
      cases ht
      simpa [Token.isFinish] using classifyWord_not_finish text
  | _ => cases ht

/-- No stretch of text makes a token that marks the end. -/
theorem scan_unfinished (mode : Mode) (pos skip : Nat) (s : List Char) :
    Unfinished (scan mode pos skip s) := by
  have hRules : ∀ mode, ∀ rule ∈ rules mode, rule.action ≠ .emit .finish := by
    intro mode
    cases mode <;> decide
  induction s generalizing mode pos skip with
  | nil => exact unfinished_nil
  | cons c s ih =>
      cases skip with
      | succ k => exact ih mode (pos + 1) k
      | zero =>
          rw [scan]
          split
          · next n action hBest =>
              obtain ⟨rule, hRule, rfl, -⟩ := exists_rule hBest
              refine .append (fun t ht => ?_) (ih _ _ _)
              exact Action.not_finish (hRules mode rule hRule) (Option.mem_toList.mp ht)
          · exact ih mode (pos + 1) 0

/-- A semicolon on a line of its own. -/
theorem sweep_semicolon (pos : Nat) (v : List Char) :
    (sweep .code pos 0 ('\n' :: ';' :: '\n' :: v)).1 =
      ⟨.operator, ";", pos + 1, pos + 2⟩ :: scan .code (pos + 3) 0 v := by
  have hLineFeed : Mode.idle .code '\n' = true := by decide
  have hSemicolon : Mode.idle .code ';' = false := by decide
  have hBest : best? (';' :: '\n' :: v) (rules .code) = some (0 + 1, .emit .operator) :=
    (best?_append hSemicolon [] v).trans (by with_unfolding_all rfl)
  have hNext : Action.next (.emit .operator) .code = .code := rfl
  rw [sweep_idle hLineFeed, sweep_match hBest, hNext, sweep_idle hLineFeed, scan_eq_sweep]
  rfl

end Lexicon

open Lexicon

/-- Two texts with a semicolon on a line of its own between them. -/
def joined (p q : String) : String := p ++ "\n;\n" ++ q

/-- The joined text as characters, with the line feed at which it is cut. -/
theorem toList_joined (p q : String) :
    (joined p q).toList = p.toList ++ '\n' :: ';' :: '\n' :: q.toList := by
  rw [joined, String.toList_append, String.toList_append, List.append_assoc]
  rfl

/-- The tokens of the first text, the semicolon, and tokens like those of the
second text. -/
theorem tokenize_joined (p q : String) (h : endsInComment p = false) :
    ∃ former latter semicolon, Unfinished former ∧ tokenize p = former ++ [Token.finish p.length] ∧
      semicolon.shape = (Token.sign ";").shape ∧ SameShape latter (tokenize q) ∧
      tokenize (joined p q) = former ++ semicolon :: latter := by
  have hCode := sweep_mode_of_endsInComment h
  refine ⟨scan .code 0 0 p.toList, scan .code (0 + p.toList.length + 3) 0 q.toList ++
    [Token.finish (joined p q).length],
    ⟨.operator, ";", 0 + p.toList.length + 1, 0 + p.toList.length + 2⟩,
    scan_unfinished .code 0 0 p.toList, rfl, rfl, ?_, ?_⟩
  · rw [SameShape, tokenize, List.map_append, List.map_append, scan_sameShape .code _ 0 0 q.toList]
    rfl
  · rw [tokenize, toList_joined, scan_eq_sweep, sweep_append 0 _ (Nat.zero_le _) hCode,
      sweep_semicolon, ← scan_eq_sweep, List.append_assoc]
    rfl

end Reckoner
