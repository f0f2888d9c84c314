import Reckoner.Proofs.StatementLookahead

/-! Errors are located. A text that cannot be read is rejected at one of its
tokens. Nothing after this token matters, and what stands before it could have
gone on to something that can be read. -/
namespace Reckoner

namespace Reading

variable {α : Type} {c n : Nat} {ts us rest : List Token}

/-- A reader of all tokens leaves none. -/
def wholly (read : List Token → Except Failure α) : Reader α :=
  fun _ ts => read ts >>= fun a => .ok (a, [])

theorem wholly_ok {read : List Token → Except Failure α} {a : α} {fuel : Nat}
    (h : wholly read fuel ts = .ok (a, [])) : read ts = .ok a := by
  obtain ⟨b, hRead, hPair⟩ := bind_ok h
  cases hPair
  exact hRead

/-- The reader of all tokens fails with the same error. -/
theorem wholly_error {read : List Token → Except Failure α} {e : Failure} {fuel : Nat} :
    wholly read fuel ts = .error e ↔ read ts = .error e := by
  unfold wholly
  cases read ts with
  | ok a => exact ⟨fun h => (by cases h), fun h => (by cases h)⟩
  | error e' => exact ⟨fun h => (by cases h; rfl), fun h => (by cases h; rfl)⟩

/-- An error is about one of the tokens. It stays the same whatever comes after
this token, and what comes before it can be completed. -/
def Located (read : List Token → Except Failure α) (ts : List Token) (e : Failure) : Prop :=
  ∃ i cause token, e = .parse cause token ∧ ts[i]? = some token ∧
    (∀ ts', ts'.take (i + 1) = ts.take (i + 1) → read ts' = .error e) ∧
    ∃ more n a, Unfinished more ∧ read (ts.take i ++ more ++ [Token.finish n]) = .ok a

/-- The end is told by the kind of the next token. -/
theorem whole_of_shape (hFinish : (peek ts).isFinish = true) (h : Manner.whole.Allows ts us) :
    (peek us).isFinish = true :=
  h.elim (fun hPeek => (Token.isFinish_eq hPeek).trans hFinish) id

/-- What a reader of all tokens rejects is one of them, if one of them marks the
end. -/
theorem Exact.located {read : List Token → Except Failure α} {former : List Token} {last : Token}
    (h : Exact .whole c n (wholly read) (former ++ [last])) (hLast : last.isFinish = true)
    (hMore : Completes .closed .whole c (wholly read)) {e : Failure}
    (hError : read (former ++ [last]) = .error e) : Located read (former ++ [last]) e := by
  cases h with
  | ok used rest a tokens takes unfinished same =>
      have hOk := same used rest (.refl used) (.inl rfl) _ (Nat.le_refl _)
      rw [← tokens, wholly_error.mpr hError] at hOk
      cases hOk
  | error used rest cause tokens unfinished same viable =>
      have hRead (rest' : List Token) (hPeek : (peek rest').shape = (peek rest).shape) :
          read (used ++ rest') = .error (.parse cause (peek rest')) :=
        wholly_error.mp (same used rest' (.refl used) hPeek _ (Nat.le_refl _))
      cases rest with
      | nil =>
          -- Something is left, since the mark of the end is not taken.
          have hMember : last ∈ used := by
            rw [List.append_nil] at tokens
            rw [← tokens]
            exact List.mem_append_right former List.mem_cons_self
          exact absurd (unfinished last hMember) (by simp [hLast])
      | cons t rest =>
          rw [tokens] at hError ⊢
          cases hError.symm.trans (hRead (t :: rest) rfl)
          refine ⟨used.length, cause, t, rfl, by simp, fun ts' hSame => ?_, ?_⟩
          · have hTake : (used ++ t :: rest).take (used.length + 1) = used ++ [t] := by
              rw [List.take_length_add_append]
              rfl
            have hTokens : ts' = used ++ (t :: ts'.drop (used.length + 1)) := by
              calc ts' = ts'.take (used.length + 1) ++ ts'.drop (used.length + 1) :=
                    (List.take_append_drop _ _).symm
                _ = used ++ [t] ++ ts'.drop (used.length + 1) := by rw [hSame, hTake]
                _ = used ++ (t :: ts'.drop (used.length + 1)) := List.append_assoc ..
            rw [hTokens]
            exact hRead _ rfl
          · rw [List.take_left]
            cases used with
            -- Nothing was taken, so any text that can be read will do.
            | nil =>
                obtain ⟨more, a, hUnfinished, hGives⟩ := hMore
                have hOk := (hGives [Token.finish 0] rfl).2 _ (Nat.le_refl _)
                exact ⟨more, 0, a, hUnfinished, wholly_ok hOk⟩
            | cons first others =>
                obtain ⟨more, a, hUnfinished, hGives⟩ := viable (List.cons_ne_nil _ _)
                have hOk := hGives [Token.finish 0] rfl _ (Nat.le_refl _)
                rw [← List.append_assoc] at hOk
                exact ⟨more, 0, a, hUnfinished, wholly_ok hOk⟩

/-! Expressions by themselves. -/

/-- Nothing may come after the expression. -/
def ending (e : Expr) : Reader Expr := fun _ ts =>
  if (peek ts).isFinish then .ok (e, []) else reject (.unexpectedToken none) (peek ts)

/-- After a whole expression the next token is the end or is rejected. -/
theorem ending_exact (e : Expr) : Exact .whole c 0 (ending e) ts := by
  cases hFinish : (peek ts).isFinish with
  | true => exact .stay e fun us hAllows _ _ => if_pos (whole_of_shape hFinish hAllows)
  | false =>
      refine .reject (.unexpectedToken none) fun us hPeek _ _ => if_neg ?_
      rw [Token.isFinish_eq hPeek, hFinish]
      decide

/-- Nothing is needed before the end. -/
theorem ending_completes {M : Manner} (e : Expr) (hStop : ∀ us, Manner.whole.stop us → M.stop us) :
    Completes M .whole c (ending e) :=
  .nothing e hStop fun _ hFinish _ _ => if_pos hFinish

/-- Without tokens there is nothing to read; otherwise an expression and then
the end. -/
theorem ofTokens_eq (fuel : Nat) (ts : List Token) : wholly Expr.ofTokens fuel ts =
    if (peek ts).isFinish then reject .emptyInput (peek ts) else chain value ending fuel ts := by
  unfold wholly Expr.ofTokens Expr.readFirst
  split
  · rfl
  · change ((Expr.read 0 ts >>= _) >>= _) = Expr.read 0 ts >>= _
    cases Expr.read 0 ts with
    | error e => rfl
    | ok read =>
        dsimp only [bind, Except.bind, ending]
        cases (peek read.2).isFinish <;> rfl

theorem expression_of_whole (us : List Token) (hStop : Manner.whole.stop us) :
    Manner.expression.stop us := .inl hStop

/-- The end stops a statement, because it is no semicolon and no word. -/
theorem statement_of_whole (us : List Token) (hStop : Manner.whole.stop us) :
    Manner.statement.stop us := by
  refine ⟨.inl hStop, ?_⟩
  have hKind : (peek us).kind = .finish := by simpa [Manner.whole, Token.isFinish] using hStop
  rw [skipSemicolons_of_finish hStop]
  simp [Token.isKeyword, hKind]

/-- The reader of whole expressions looks one token ahead, since its parts do. -/
theorem ofTokens_exact (ts : List Token) : Exact .whole 0 1 (wholly Expr.ofTokens) ts := by
  cases hFinish : (peek ts).isFinish with
  | true =>
      refine .reject .emptyInput fun us hPeek fuel _ => ?_
      rw [ofTokens_eq, if_pos ((Token.isFinish_eq hPeek).trans hFinish)]
  | false =>
      have hBoth := (read_exact 0 ts).chain (c := 0) (k := 0) (fun _ _ _ => rfl)
        (fun e us _ => ending_exact (c := 0) e) (fun _ => expression_of_whole)
        (fun e => ending_completes e expression_of_whole) (by omega)
      refine hBoth.branch fun fuel us hPeek => ?_
      have hNot : (peek us).isFinish = false := (Token.isFinish_eq hPeek).trans hFinish
      rw [ofTokens_eq, if_neg (Bool.eq_false_iff.mp hNot)]

theorem ofTokens_completes : Completes .closed .whole 0 (wholly Expr.ofTokens) := by
  obtain ⟨more, e, hMore, hGives⟩ := (read_completes 0).chain (c := 0) (fun _ _ _ => rfl)
    (fun e => ending_completes (c := 0) e expression_of_whole) (Nat.le_refl 0) (Nat.le_refl 0)
  refine ⟨more, e, hMore, fun rest hRest => ⟨trivial, fun fuel hFuel => ?_⟩⟩
  have hOk := (hGives rest hRest).2 fuel hFuel
  obtain ⟨⟨e, us⟩, hRead, -⟩ := bind_ok hOk
  obtain ⟨used, hTokens, hExpression⟩ := Expr.read_ok_iff.mp hRead
  have hLeads := hExpression.leads us
  rw [← hTokens] at hLeads
  rw [ofTokens_eq, if_neg (Bool.eq_false_iff.mp hLeads.not_finish), hOk]

/-! Programs. -/

/-- The statements up to the end. -/
def remaining : Reader Program := fun fuel ts => statements fuel ts >>= fun p => .ok (p, [])

/-- A statement and those that follow it. -/
def statementsFrom : Reader Program :=
  chain (fun _ us => statement (budget us) us) fun first => mapped (first :: ·) (skipping remaining)

theorem statementsFrom_eq : statementsFrom = chain (fun _ us => statement (budget us) us)
    fun first => mapped (first :: ·) remaining := by
  have hPaused : paused (fun _ us => statement (budget us) us) =
      fun _ us => statement (budget us) us := by
    funext fuel us
    exact congrFun (congrFun paused_statement (budget us)) us
  have hChain := chain_paused (fun _ us => statement (budget us) us)
    fun first => mapped (first :: ·) remaining
  rw [hPaused] at hChain
  exact hChain.symm

/-- The end, or a statement and what remains after it. -/
theorem remaining_eq (fuel : Nat) (ts : List Token) : remaining (fuel + 1) ts =
    if (peek ts).isFinish then .ok ([], []) else statementsFrom fuel ts := by
  rw [statementsFrom_eq, remaining, statements]
  split
  · rfl
  · dsimp only [chain, mapped, remaining]
    cases statement (budget ts) ts with
    | error e => rfl
    | ok read =>
        dsimp only [bind, Except.bind]
        cases statements fuel read.2 <;> rfl

/-- A program needs no more statements than it has. -/
theorem remaining_completes {M : Manner} (hStop : ∀ us, Manner.whole.stop us → M.stop us) :
    Completes M .whole 1 (skipping remaining) := by
  refine .nothing [] hStop fun us hRest fuel hFuel => ?_
  have hFinish : (peek us).isFinish = true := hRest
  obtain ⟨fuel, rfl⟩ := Nat.exists_eq_add_of_le' (show 1 ≤ fuel by omega)
  rw [skipping, skipSemicolons_of_finish hFinish, remaining_eq, if_pos hFinish]
  rfl

/-- Where there is something, a statement is taken from it. -/
theorem remaining_exact_of_not_finish (hFinish : (peek ts).isFinish = false)
    (h : ∀ us : List Token, us.length < ts.length → Exact .whole 1 0 (skipping remaining) us) :
    Exact .whole 1 1 remaining ts := by
  have hFirst : Exact .statement 0 1 (fun _ us => statement (budget us) us) ts :=
    ((foresees ts.length).statement_exact (Nat.le_refl _)).ofBudget (by omega)
  have hFrom : Exact .whole 0 1 statementsFrom ts :=
    hFirst.chain
      (fun first fuel us => congrArg (· >>= _) (congrArg (remaining fuel) (skipSemicolons_skip us)))
      (fun first us hLess => (h us (by omega)).mapped (first :: ·)) (fun _ => statement_of_whole)
      (fun first => (remaining_completes statement_of_whole).mapped (first :: ·)) (by omega)
  have hInner : Exact .whole 0 1 (fun fuel => remaining (fuel + 1)) ts := by
    refine hFrom.branch fun fuel us hPeek => ?_
    have hNot : (peek us).isFinish = false := (Token.isFinish_eq hPeek).trans hFinish
    rw [remaining_eq, if_neg (Bool.eq_false_iff.mp hNot)]
  exact hInner.step fun _ _ => rfl

/-- The induction is on the number of tokens. -/
theorem remaining_exact (ts : List Token) : Exact .whole 1 0 (skipping remaining) ts := by
  induction hLength : ts.length using Nat.strongRecOn generalizing ts with
  | ind m ih =>
      have hSkipped := (Passed.skipSemicolons ts).length_le
      cases hFinish : (peek (skipSemicolons ts)).isFinish with
      | true =>
          obtain ⟨semicolons, hSemicolons, hTokens⟩ := exists_semicolons ts
          refine .ok semicolons (skipSemicolons ts) [] hTokens (Nat.zero_le _)
            hSemicolons.unfinished fun used' rest' hUsed hAllows fuel hFuel => ?_
          have hEnds := whole_of_shape hFinish hAllows
          obtain ⟨fuel, rfl⟩ := Nat.exists_eq_add_of_le' (show 1 ≤ fuel by omega)
          rw [skipping, (hSemicolons.of_sameShape hUsed).skip, skipSemicolons_of_finish hEnds,
            remaining_eq, if_pos hEnds]
          rfl
      | false =>
          have hFrom := remaining_exact_of_not_finish hFinish
            fun us hLess => ih us.length (by omega) us rfl
          exact (hFrom.skipping (remaining_completes fun _ _ => trivial)).mono (Nat.zero_le 1)

/-- What comes first in a program. -/
def opened : Reader Program := fun _ ts =>
  if (peek ts).isFinish then reject .emptyInput (peek ts) else remaining (budget ts) ts

/-- The reader of programs passes over semicolons first and rejects a text with
nothing else in it. -/
theorem wholly_program : wholly Program.ofTokens = skipping opened := by
  funext fuel ts
  unfold wholly Program.ofTokens skipping opened remaining
  dsimp only
  split <;> rfl

/-- One statement makes a program. -/
theorem program_completes : Completes .closed .whole 0 (wholly Program.ofTokens) := by
  refine ⟨[Token.word "break"], [.breakLoop], .cons rfl unfinished_nil,
    fun rest hRest => ⟨trivial, fun fuel _ => ?_⟩⟩
  have hFinish : (peek rest).isFinish = true := hRest
  have hFirst : statement (budget (Token.word "break" :: rest)) (Token.word "break" :: rest) =
      .ok (.breakLoop, rest) :=
    congrArg (fun us => Except.ok (Statement.breakLoop, us)) (skipSemicolons_of_finish hFinish)
  have hNone (fuel : Nat) : statements (fuel + 1) rest = .ok [] := by
    rw [statements, if_pos hFinish]
  change (statement (budget (Token.word "break" :: rest)) (Token.word "break" :: rest) >>= _) >>=
    _ = _
  rw [hFirst]
  change (statements (4 * (rest.length + 1) + 3) rest >>= _) >>= _ = _
  rw [hNone]
  rfl

/-- The reader of whole programs looks one token ahead. -/
theorem program_exact (ts : List Token) : Exact .whole 0 1 (wholly Program.ofTokens) ts := by
  have hOpened : Exact .whole 0 1 opened (skipSemicolons ts) := by
    cases hFinish : (peek (skipSemicolons ts)).isFinish with
    | true =>
        refine .reject .emptyInput fun us hPeek fuel _ => if_pos ?_
        rw [Token.isFinish_eq hPeek, hFinish]
    | false =>
        have hFrom := (remaining_exact_of_not_finish hFinish
          fun us _ => remaining_exact us).ofBudget (by omega)
        refine hFrom.branch fun fuel us hPeek => if_neg ?_
        rw [Token.isFinish_eq hPeek, hFinish]
        decide
  rw [wholly_program]
  exact hOpened.skipping (wholly_program ▸ program_completes)

end Reading

open Reading

/-- Syntax errors are located exactly, in programs and in expressions. -/
theorem errors_located (text : String) (e : Failure) :
    (Program.ofTokens (tokenize text) = .error e →
      Located Program.ofTokens (tokenize text) e) ∧
    (Expr.ofTokens (tokenize text) = .error e → Located Expr.ofTokens (tokenize text) e) :=
  ⟨(program_exact _).located rfl program_completes,
    (ofTokens_exact _).located rfl ofTokens_completes⟩

/-- The parenthesis is missed at the semicolon. -/
theorem errors_located_semicolon :
    Located Program.ofTokens (tokenize "let x = (1 + 2; x")
      (.parse .unmatchedParenthesis ⟨.operator, ";", 14, 15⟩) ∧
    Located Expr.ofTokens (tokenize "(1 + 2; x")
      (.parse .unmatchedParenthesis ⟨.operator, ";", 6, 7⟩) :=
  ⟨(errors_located _ _).1 rfl, (errors_located _ _).2 rfl⟩

end Reckoner
