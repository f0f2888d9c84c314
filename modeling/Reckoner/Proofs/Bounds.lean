import Reckoner.Proofs.ErrorLocation

/-! Readers stay within the tokens. A call that begins at one of the tokens and
succeeds ends at a later one, and the token that marks the end is never taken. Whatever
would come after that token makes no difference. These facts do not depend on the
budget of a call: a larger one only adds results where a smaller one gave up. -/
namespace Reckoner

namespace Reading

/-! Budgets. -/

/-- What a reader gives with this budget, it gives with one more. -/
def Lasts {α : Type} (fuel : Nat) (read : Reader α) : Prop :=
  ∀ ts r, read fuel ts = .ok r → read (fuel + 1) ts = .ok r

namespace Lasts

variable {α β : Type} {fuel : Nat}

/-- A reader that sees to its budget itself. -/
theorem const (read : List Token → Except Failure (α × List Token)) :
    Lasts fuel (fun _ => read) := fun _ _ h => h

/-- Readers one after another have the same budget, so both give the same again. -/
theorem chain {read : Reader α} {next : α → Reader β} (h : Lasts fuel read)
    (hNext : ∀ a, Lasts fuel (next a)) : Lasts fuel (Reading.chain read next) := by
  intro ts r hRead
  obtain ⟨⟨a, us⟩, hFirst, hRest⟩ := bind_ok hRead
  rw [Reading.chain, h ts _ hFirst]
  exact hNext a us r hRest

theorem given (a : α) : Lasts fuel (Reading.given a) := const _

theorem mapped (f : α → β) {read : Reader α} (h : Lasts fuel read) :
    Lasts fuel (Reading.mapped f read) := h.chain fun a => given (f a)

theorem paused {read : Reader α} (h : Lasts fuel read) : Lasts fuel (Reading.paused read) :=
  h.chain fun _ => const _

/-- Semicolons cost nothing of the budget. -/
theorem skipping {read : Reader α} (h : Lasts fuel read) : Lasts fuel (Reading.skipping read) :=
  fun ts => h (skipSemicolons ts)

/-- A reader that goes by the next tokens. -/
theorem branch (test : List Token → Bool) {yes no : Reader α} (hYes : Lasts fuel yes)
    (hNo : Lasts fuel no) :
    Lasts fuel (fun fuel ts => if test ts then yes fuel ts else no fuel ts) := by
  intro ts r hRead
  dsimp only at hRead ⊢
  split at hRead
  · next hTest =>
      rw [if_pos hTest]
      exact hYes ts r hRead
  · next hTest =>
      rw [if_neg hTest]
      exact hNo ts r hRead

/-- The choice does not depend on the budget. -/
theorem ifNext {kind : Token.Kind} {text : String} {yes no : Reader α} (hYes : Lasts fuel yes)
    (hNo : Lasts fuel no) : Lasts fuel (Reading.ifNext kind text yes no) :=
  branch (fun ts => (peek ts).isA kind text) (fun ts => hYes ts.tail) hNo

/-- The budget that a reader hands on is one less. -/
theorem step {read inner : Reader α} (hRead : ∀ fuel us, read (fuel + 1) us = inner fuel us)
    (h : Lasts fuel inner) : Lasts (fuel + 1) read := by
  intro ts r hOk
  rw [hRead] at hOk ⊢
  exact h ts r hOk

end Lasts

/-- The readers of statements with this budget. -/
structure Lasting (fuel : Nat) : Prop where
  statement : Lasts fuel Reading.statement
  phrase : ∀ t, Lasts fuel (fun fuel => Reading.phrase fuel t)
  conditional : Lasts fuel Reading.conditional
  subroutine : ∀ kind, Lasts fuel (fun fuel => Reading.subroutine fuel kind)
  body : Lasts fuel Reading.body
  block : Lasts fuel Reading.block
  blockRest : Lasts fuel Reading.blockRest

namespace Lasting

variable {fuel : Nat}

/-- A block, or whatever else may stand in its place. -/
theorem blockOr (h : Lasting fuel) {read : Reader Statement} (hRead : Lasts fuel read) :
    Lasts fuel (fun fuel ts => if (peek ts).isOperator "\x7b" then
      mapped Statement.block Reading.block fuel ts else read fuel ts) :=
  .branch (fun ts => (peek ts).isOperator "\x7b") (h.block.mapped Statement.block) hRead

theorem clause (h : Lasting fuel) : Lasts fuel Reading.clause := by
  intro ts r hRead
  unfold Reading.clause at hRead ⊢
  cases hKind : (peek ts).kind with
  | finish =>
      simp only [hKind] at hRead
      cases hRead
  | keyword =>
      simp only [hKind] at hRead ⊢
      exact h.phrase _ _ _ hRead
  | _ =>
      simp only [hKind] at hRead ⊢
      exact h.blockOr (.const simple) ts r hRead

/-- The readers behind the keywords, one case for each. -/
theorem begun (h : Lasting fuel) {text : String} {read : Reader Statement}
    (hBegun : Reading.begun text = some read) : Lasts fuel read := by
  unfold Reading.begun at hBegun
  split at hBegun <;> cases hBegun
  · exact h.conditional
  · exact .chain (.const _) fun test => h.body.mapped (Statement.whileLoop test)
  · exact .given _
  · exact .given _
  · exact .mapped _ (.const _)
  · exact .mapped _ (.const _)
  · exact .const _
  · exact .const _
  · exact h.subroutine _
  · exact h.subroutine _

/-- A keyword that begins no statement is rejected with every budget. -/
theorem phrase_succ (h : Lasting fuel) (t : Token) :
    Lasts (fuel + 1) (fun fuel => Reading.phrase fuel t) := by
  cases hBegun : Reading.begun t.text with
  | some read => exact (h.begun hBegun).step (phrase_begun hBegun)
  | none =>
      intro ts r hRead
      dsimp only at hRead
      rw [phrase_rejects hBegun] at hRead
      cases hRead

theorem blockMore (h : Lasting fuel) : Lasts fuel Reading.blockMore :=
  .branch (fun ts => (peek ts).isFinish) (.const fun ts => reject .expectedBlock (peek ts))
    (h.statement.chain fun first => h.blockRest.mapped (first :: ·))

/-- Step for all readers of statements at once, each opened in the form in which
it is put together. -/
theorem succ (h : Lasting fuel) : Lasting (fuel + 1) where
  statement := h.clause.paused.step statement_eq
  phrase := h.phrase_succ
  conditional := by
    refine Lasts.step conditional_eq (.chain (.const _) fun test => ?_)
    refine h.body.paused.chain fun yes => ?_
    exact .ifNext (.mapped _ (.ifNext h.conditional h.body)) (.given _)
  subroutine kind := Lasts.step (subroutine_eq kind) (.chain (.const _) fun _ => h.block.mapped _)
  body := Lasts.step body_eq (h.blockOr h.statement).skipping
  block := Lasts.step block_eq (.ifNext h.blockRest (.const _))
  blockRest := Lasts.step blockRest_eq (Lasts.ifNext (.given []) h.blockMore).skipping

end Lasting

/-- The induction is on the budget, as for what the readers give. -/
theorem lasting (fuel : Nat) : Lasting fuel := by
  induction fuel with
  | zero => constructor <;> intros <;> intro ts r hRead <;> cases hRead
  | succ fuel ih => exact ih.succ

/-- A result does not go away with a larger budget that is enough for the tokens. -/
def Persists {α : Type} (read : Reader α) : Prop :=
  ∀ ts r fuel fuel', fuel ≤ fuel' → budget ts ≤ fuel' → read fuel ts = .ok r →
    read fuel' ts = .ok r

/-- Induction over the difference of the budgets. -/
theorem Lasts.persists {α : Type} {read : Reader α} (h : ∀ fuel, Lasts fuel read) :
    Persists read := by
  intro ts r fuel fuel' hLe hEnough hRead
  clear hEnough
  induction hLe with
  | refl => exact hRead
  | step _ ih => exact h _ ts r ih

/-- What is read with any budget follows the grammar, and this is read again. -/
theorem expression_persists (least : Rat) : Persists (fun fuel => expression fuel least) := by
  rintro ts ⟨e, rest⟩ fuel fuel' - hEnough hRead
  obtain ⟨used, rfl, hExpression⟩ := (lawful fuel).expression hRead
  rw [budget, List.length_append] at hEnough
  exact hExpression.reads rfl (by omega)

/-- As for expressions, this goes by the grammar. -/
theorem operand_persists : Persists operand := by
  rintro ts ⟨e, rest⟩ fuel fuel' - hEnough hRead
  obtain ⟨used, rfl, hOperand⟩ := (lawful fuel).operand hRead
  rw [budget, List.length_append] at hEnough
  exact hOperand.reads rfl (by omega)

theorem arguments_persists : Persists arguments := by
  rintro ts ⟨args, rest⟩ fuel fuel' - hEnough hRead
  obtain ⟨used, rfl, hArguments⟩ := (lawful fuel).arguments hRead
  rw [budget, List.length_append] at hEnough
  exact hArguments.reads (by omega)

/-! Ends. -/

/-- The last of the tokens marks the end. -/
def Terminated (ts : List Token) : Prop := ∃ t, ts.getLast? = some t ∧ t.isFinish = true

namespace Terminated

variable {ts used rest : List Token}

theorem ne_nil (h : Terminated ts) : ts ≠ [] := by
  rintro rfl
  obtain ⟨t, hLast, -⟩ := h
  cases hLast

/-- There is always a next token, so what comes beyond is never looked at first. -/
theorem peek_append (h : Terminated ts) (beyond : List Token) : peek (ts ++ beyond) = peek ts := by
  obtain ⟨t, ts, rfl⟩ := List.exists_cons_of_ne_nil h.ne_nil
  rfl

theorem peek_mem (h : Terminated ts) : peek ts ∈ ts := by
  obtain ⟨t, ts, rfl⟩ := List.exists_cons_of_ne_nil h.ne_nil
  exact List.mem_cons_self

/-- The end is not among what was taken. -/
theorem after (h : Terminated (used ++ rest)) (hUsed : Unfinished used) : Terminated rest := by
  obtain ⟨t, hLast, hFinish⟩ := h
  refine ⟨t, ?_, hFinish⟩
  rw [List.getLast?_append] at hLast
  rcases Option.or_eq_some_iff.mp hLast with hRest | ⟨-, hTaken⟩
  · exact hRest
  · rw [hUsed t (List.mem_of_getLast? hTaken)] at hFinish
    cases hFinish

/-- Wherever a call begins among the tokens, the end is still to come. -/
theorem drop (h : Terminated ts) {pos : Nat} (hPos : pos < ts.length) :
    Terminated (ts.drop pos) := by
  obtain ⟨t, hLast, hFinish⟩ := h
  exact ⟨t, by rw [List.getLast?_drop, if_neg (by omega), hLast], hFinish⟩

/-- The end is no semicolon, so passing over them leaves it. -/
theorem skipSemicolons (h : Terminated ts) : Terminated (Reading.skipSemicolons ts) := by
  obtain ⟨semicolons, hSemicolons, hTokens⟩ := exists_semicolons ts
  exact after (hTokens ▸ h) hSemicolons.unfinished

/-- Semicolons beyond the end are not reached. -/
theorem skipSemicolons_append (h : Terminated ts) (beyond : List Token) :
    Reading.skipSemicolons (ts ++ beyond) = Reading.skipSemicolons ts ++ beyond := by
  obtain ⟨semicolons, hSemicolons, hTokens⟩ := exists_semicolons ts
  have hPause : (peek (Reading.skipSemicolons ts ++ beyond)).isOperator ";" = false := by
    rw [h.skipSemicolons.peek_append, peek_skipSemicolons]
  have hAll : ts ++ beyond = semicolons ++ (Reading.skipSemicolons ts ++ beyond) := by
    rw [← List.append_assoc, ← hTokens]
  rw [hAll, hSemicolons.skip, skipSemicolons_of_pause hPause]

end Terminated

/-! One call. -/

/-- What a call makes of tokens that are terminated: it takes some of them but not all,
or it rejects one of them. What comes beyond them is left alone. -/
inductive Confined {α : Type} (c : Nat) (read : Reader α) (ts : List Token) : Prop where
  | ok (used rest : List Token) (a : α) (tokens : ts = used ++ rest) (takes : used ≠ [])
      (leaves : rest ≠ []) (same : ∀ beyond, Gives c read (ts ++ beyond) (.ok (a, rest ++ beyond)))
  | error (cause : ParseError.Cause) (token : Token) (member : token ∈ ts)
      (same : ∀ beyond, Gives c read (ts ++ beyond) (.error (.parse cause token)))

/-- Readers that look one token ahead stay within terminated tokens: what
decides is the tokens taken and the next one, and neither lies beyond the end. -/
theorem Exact.confined {α : Type} {M : Manner} {c : Nat} {read : Reader α} {ts : List Token}
    (h : Exact M c 1 read ts) (hEnd : Terminated ts)
    (hLeft : M.left = id ∨ M.left = skipSemicolons) : Confined c read ts := by
  cases h with
  | ok used rest a tokens takes unfinished same =>
      have hRest : Terminated rest := .after (tokens ▸ hEnd) unfinished
      have hUsed : used ≠ [] := List.length_pos_iff.mp takes
      have hSame (beyond : List Token) :
          Gives c read (ts ++ beyond) (.ok (a, M.left (rest ++ beyond))) := by
        rw [tokens, List.append_assoc]
        refine same used _ (.refl used) (.inl ?_)
        rw [hRest.peek_append]
      rcases hLeft with hLeft | hLeft
      · rw [hLeft] at hSame
        exact .ok used rest a tokens hUsed hRest.ne_nil hSame
      · obtain ⟨semicolons, -, hTokens⟩ := exists_semicolons rest
        simp only [hLeft, hRest.skipSemicolons_append] at hSame
        refine .ok (used ++ semicolons) _ a ?_ ?_ hRest.skipSemicolons.ne_nil hSame
        · rw [List.append_assoc, ← hTokens, tokens]
        · exact List.append_ne_nil_of_left_ne_nil hUsed _
  | error used rest cause tokens unfinished same viable =>
      have hRest : Terminated rest := .after (tokens ▸ hEnd) unfinished
      refine .error cause (peek rest) ?_ fun beyond => ?_
      · rw [tokens]
        exact List.mem_append_right used hRest.peek_mem
      · rw [tokens, List.append_assoc, ← hRest.peek_append beyond]
        refine same used _ (.refl used) ?_
        rw [hRest.peek_append]

namespace Confined

variable {α β : Type} {read inner : Reader α} {ts : List Token} {c d : Nat}

/-- What stays within the tokens is told by the results, so a reader with the
same results does. -/
theorem transfer (h : Confined c inner ts)
    (hGives : ∀ beyond r, Gives c inner (ts ++ beyond) r → Gives d read (ts ++ beyond) r) :
    Confined d read ts := by
  cases h with
  | ok used rest a tokens takes leaves same =>
      exact .ok used rest a tokens takes leaves fun beyond => hGives beyond _ (same beyond)
  | error cause token member same =>
      exact .error cause token member fun beyond => hGives beyond _ (same beyond)

theorem mapped (f : α → β) (h : Confined c read ts) : Confined c (Reading.mapped f read) ts := by
  cases h with
  | ok used rest a tokens takes leaves same =>
      exact .ok used rest (f a) tokens takes leaves fun beyond => (same beyond).mapped_ok f
  | error cause token member same =>
      exact .error cause token member fun beyond => (same beyond).chain_error (Nat.le_refl c)

/-- Semicolons before a reader are tokens that it takes, and they are not the
end. -/
theorem skipping (h : Confined c read (skipSemicolons ts)) (hEnd : Terminated ts) :
    Confined c (Reading.skipping read) ts := by
  obtain ⟨semicolons, -, hTokens⟩ := exists_semicolons ts
  have hGives {beyond : List Token} {r : Except Failure (α × List Token)}
      (hSkipped : Gives c read (skipSemicolons ts ++ beyond) r) :
      Gives c (Reading.skipping read) (ts ++ beyond) r := by
    intro fuel hFuel
    have hLength := (Passed.skipSemicolons (ts ++ beyond)).length_le
    rw [Reading.skipping, hEnd.skipSemicolons_append]
    rw [hEnd.skipSemicolons_append] at hLength
    exact hSkipped fuel (by omega)
  cases h with
  | ok used rest a tokens takes leaves same =>
      refine .ok (semicolons ++ used) rest a ?_ ?_ leaves fun beyond => hGives (same beyond)
      · rw [List.append_assoc, ← tokens, ← hTokens]
      · exact List.append_ne_nil_of_right_ne_nil _ takes
  | error cause token member same =>
      refine .error cause token ?_ fun beyond => hGives (same beyond)
      rw [hTokens]
      exact List.mem_append_right _ member

end Confined

/-- A block, or a statement with the semicolons after it. -/
theorem body_confined {ts : List Token} (hEnd : Terminated ts) : Confined 3 body ts := by
  have hSkipped := hEnd.skipSemicolons
  have hPeek (beyond : List Token) :
      peek (skipSemicolons ts ++ beyond) = peek (skipSemicolons ts) := hSkipped.peek_append beyond
  have hForesees := foresees (skipSemicolons ts).length
  have hEither : Confined 2 blockOrStatement (skipSemicolons ts) := by
    cases hOpens : (peek (skipSemicolons ts)).isOperator "\x7b" with
    | true =>
        have hBlock := (hForesees.block_exact (Nat.le_refl _)).confined hSkipped (.inl rfl)
        refine (hBlock.mapped Statement.block).transfer fun beyond r hGives fuel hFuel => ?_
        rw [blockOrStatement, hPeek, if_pos hOpens]
        exact hGives fuel (by omega)
    | false =>
        have hStatement := (hForesees.statement_exact (Nat.le_refl _)).confined hSkipped (.inr rfl)
        refine hStatement.transfer fun beyond r hGives fuel hFuel => ?_
        rw [blockOrStatement, hPeek, if_neg (Bool.eq_false_iff.mp hOpens)]
        exact hGives fuel hFuel
  exact (hEither.skipping hEnd).transfer fun _ _ hGives => hGives.step body_eq

/-- How a reader behaves wherever among these tokens it is called. With any budget,
what succeeds ends at a later token. With enough of it there is an answer, an error
being about one of the tokens, and the answer stays the same whatever comes beyond. -/
structure Bounded {α : Type} (read : Reader α) (ts : List Token) : Prop where
  progress : ∀ fuel pos a rest, pos < ts.length → read fuel (ts.drop pos) = .ok (a, rest) →
    ∃ pos', pos < pos' ∧ pos' < ts.length ∧ rest = ts.drop pos'
  answer : ∀ fuel pos, pos < ts.length → budget (ts.drop pos) ≤ fuel →
    (∃ a rest, read fuel (ts.drop pos) = .ok (a, rest)) ∨
      ∃ cause, ∃ token ∈ ts.drop pos, read fuel (ts.drop pos) = .error (.parse cause token)
  inside : ∀ fuel pos beyond, pos < ts.length → budget (ts.drop pos ++ beyond) ≤ fuel →
    read fuel (ts.drop pos ++ beyond) =
      (read fuel (ts.drop pos)).map fun r => (r.1, r.2 ++ beyond)

/-- The case that nothing comes beyond. -/
theorem Gives.of_beyond {α : Type} {read : Reader α} {ts : List Token} {c : Nat}
    {r : List Token → Except Failure (α × List Token)}
    (h : ∀ beyond, Gives c read (ts ++ beyond) (r beyond)) : Gives c read ts (r []) := by
  have hNone := h []
  rwa [List.append_nil] at hNone

/-- From one call with enough of a budget to calls with any. With less there is
at most the same result. -/
theorem Confined.bounded {α : Type} {read : Reader α} {ts : List Token} {c : Nat} (hc : c ≤ 4)
    (h : ∀ us, Terminated us → Confined c read us) (hPersists : Persists read)
    (hEnd : Terminated ts) : Bounded read ts where
  progress fuel pos a rest hPos hRead := by
    -- The budget may be small, but what it gave is given by one that is enough, too.
    have hLarge := hPersists _ _ fuel _ (Nat.le_add_right fuel (budget (ts.drop pos)))
      (Nat.le_add_left _ _) hRead
    have hEnough : 4 * (ts.drop pos).length + c ≤ fuel + budget (ts.drop pos) := by
      rw [budget]
      omega
    cases h _ (hEnd.drop hPos) with
    | ok used rest' a' tokens takes leaves same =>
        have hSame := Gives.of_beyond same _ hEnough
        rw [List.append_nil, hLarge] at hSame
        cases hSame
        have hUsed := List.length_pos_iff.mpr takes
        have hRest := List.length_pos_iff.mpr leaves
        have hLength := congrArg List.length tokens
        rw [List.length_drop, List.length_append] at hLength
        refine ⟨pos + used.length, by omega, by omega, ?_⟩
        rw [← List.drop_drop, tokens, List.drop_left]
    | error cause token member same =>
        cases hLarge.symm.trans (Gives.of_beyond same _ hEnough)
  answer fuel pos hPos hFuel := by
    rw [budget] at hFuel
    cases h _ (hEnd.drop hPos) with
    | ok used rest a tokens takes leaves same =>
        exact .inl ⟨a, _, Gives.of_beyond same fuel (by omega)⟩
    | error cause token member same =>
        exact .inr ⟨cause, token, member, Gives.of_beyond same fuel (by omega)⟩
  inside fuel pos beyond hPos hFuel := by
    have hEnough : 4 * (ts.drop pos).length + c ≤ fuel := by
      rw [budget, List.length_append] at hFuel
      omega
    rw [budget] at hFuel
    cases h _ (hEnd.drop hPos) with
    | ok used rest a tokens takes leaves same =>
        rw [same beyond fuel (by omega), Gives.of_beyond same fuel hEnough, List.append_nil]
        rfl
    | error cause token member same =>
        rw [same beyond fuel (by omega), Gives.of_beyond same fuel hEnough]
        rfl

end Reading

open Reading

/-- All readers stay within tokens of which the last marks the end, and whole texts are
read or rejected at a token. -/
theorem reading_bounded {ts : List Token} (hEnd : Terminated ts) :
    ((∀ least, Bounded (fun fuel => expression fuel least) ts) ∧ Bounded operand ts ∧
      Bounded arguments ts ∧ Bounded statement ts ∧ Bounded block ts ∧ Bounded body ts) ∧
    ((∃ p, Program.ofTokens ts = .ok p) ∨
      ∃ cause token, Program.ofTokens ts = .error (.parse cause token)) ∧
    ∀ text, (∃ e, Expr.ofText text = .ok e) ∨
      ∃ cause token, Expr.ofText text = .error (.parse cause token) := by
  have hYields {α : Type} {r : Except Failure α} (h : Yields (fun _ => True) r) :
      (∃ a, r = .ok a) ∨ ∃ cause token, r = .error (.parse cause token) := by
    cases r with
    | ok a => exact .inl ⟨a, rfl⟩
    | error e =>
        obtain ⟨cause, token, rfl⟩ := h
        exact .inr ⟨cause, token, rfl⟩
  refine ⟨⟨fun least => ?_, ?_, ?_, ?_, ?_, ?_⟩, hYields (Program.ofTokens_yields ts),
    fun text => hYields (Expr.ofTokens_yields _)⟩
  · exact Confined.bounded (show 2 ≤ 4 by omega)
      (fun us hUs => ((looksAhead us.length).expression_exact least).confined hUs (.inl rfl))
      (expression_persists least) hEnd
  · exact Confined.bounded (show 1 ≤ 4 by omega)
      (fun us hUs => (looksAhead us.length).operand_exact.confined hUs (.inl rfl))
      operand_persists hEnd
  · exact Confined.bounded (Nat.le_refl 4)
      (fun us hUs => (looksAhead us.length).arguments_exact.confined hUs (.inl rfl))
      arguments_persists hEnd
  · exact Confined.bounded (show 2 ≤ 4 by omega)
      (fun us hUs => ((foresees us.length).statement_exact (Nat.le_refl _)).confined hUs (.inr rfl))
      (Lasts.persists fun fuel => (lasting fuel).statement) hEnd
  · exact Confined.bounded (show 1 ≤ 4 by omega)
      (fun us hUs => ((foresees us.length).block_exact (Nat.le_refl _)).confined hUs (.inl rfl))
      (Lasts.persists fun fuel => (lasting fuel).block) hEnd
  · exact Confined.bounded (show 3 ≤ 4 by omega) (fun us hUs => body_confined hUs)
      (Lasts.persists fun fuel => (lasting fuel).body) hEnd

/-- The semicolon is taken with the call before it, and the second name is left. A brace
beyond the end is not looked at. -/
theorem reading_bounded_call :
    let ts := tokenize "f(x); y"
    Terminated ts ∧
    (∃ pos', 0 < pos' ∧ pos' < ts.length ∧
      statement 40 ts = .ok (.call "f" [.name "x"], ts.drop pos')) ∧
    statement 40 (ts ++ [Token.sign "\x7d"]) =
      .ok (.call "f" [.name "x"], ts.drop 5 ++ [Token.sign "\x7d"]) := by
  intro ts
  have hEnd : Terminated ts := ⟨_, rfl, rfl⟩
  have hRead : statement 40 ts = .ok (.call "f" [.name "x"], ts.drop 5) := rfl
  obtain ⟨⟨-, -, -, hStatement, -, -⟩, -⟩ := reading_bounded hEnd
  obtain ⟨pos', hLater, hBefore, hRest⟩ := hStatement.progress 40 0 _ _ (by decide) hRead
  refine ⟨hEnd, ⟨pos', hLater, hBefore, hRest ▸ hRead⟩, ?_⟩
  have hInside := hStatement.inside 40 0 [Token.sign "\x7d"] (by decide) (by decide)
  rw [List.drop_zero, hRead] at hInside
  exact hInside

end Reckoner
