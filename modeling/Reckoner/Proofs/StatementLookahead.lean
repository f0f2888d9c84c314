import Reckoner.Proofs.ExpressionLookahead

/-! The readers of statements look one token ahead, apart from the semicolons that
they pass over. -/
namespace Reckoner

open Reading

/-- Tokens are semicolons and others after them. -/
theorem exists_semicolons (ts : List Token) :
    ∃ semicolons, AreSemicolons semicolons ∧ ts = semicolons ++ skipSemicolons ts :=
  ⟨ts.takeWhile (·.isOperator ";"), List.all_eq_true.mp List.all_takeWhile,
    List.takeWhile_append_dropWhile.symm⟩

/-- No semicolon is left to pass over. -/
theorem peek_skipSemicolons (ts : List Token) :
    (peek (skipSemicolons ts)).isOperator ";" = false := by
  induction ts with
  | nil => rfl
  | cons t ts ih =>
      rw [skipSemicolons, List.dropWhile_cons]
      split
      · exact ih
      · next hOther => exact Bool.eq_false_iff.mpr hOther

theorem skipSemicolons_of_finish {ts : List Token} (h : (peek ts).isFinish = true) :
    skipSemicolons ts = ts :=
  skipSemicolons_of_pause (Token.not_operator_of_isFinish h ";")

/-- Passing over semicolons twice is passing over them once. -/
theorem skipSemicolons_skip (ts : List Token) :
    skipSemicolons (skipSemicolons ts) = skipSemicolons ts :=
  skipSemicolons_of_pause (peek_skipSemicolons ts)

namespace AreSemicolons

variable {ts us : List Token}

theorem unfinished (h : AreSemicolons us) : Unfinished us :=
  fun t ht => Token.not_finish_of_isOperator (h t ht)

/-- Tokens of the shape of semicolons are semicolons. -/
theorem of_sameShape (h : AreSemicolons us) (hShape : SameShape ts us) : AreSemicolons ts := by
  induction us generalizing ts with
  | nil =>
      rw [hShape.nil]
      exact h
  | cons u us ih =>
      obtain ⟨t, ts, rfl, hToken, hRest⟩ := hShape.cons
      intro v hv
      rcases List.mem_cons.mp hv with rfl | hv
      · rw [Token.isOperator_eq hToken]
        exact h u List.mem_cons_self
      · exact ih (fun other hOther => h other (List.mem_cons_of_mem u hOther)) hRest v hv

end AreSemicolons

/-- An expression as a statement. A call by itself becomes a call statement. -/
def Expr.asStatement : Expr → Statement
  | .call callee args => .call callee args
  | e => .expression e

namespace Reading

variable {α β : Type} {M N : Manner} {c d n m : Nat} {ts us rest : List Token}

/-- Gives what is at hand and passes over semicolons. -/
def pausing (a : α) : Reader α := fun _ ts => .ok (a, skipSemicolons ts)

/-- A reader and semicolons after it. -/
def paused (read : Reader α) : Reader α := chain read pausing

/-- The semicolons are all that it takes. Any tokens of their shape are taken as
well, whatever comes after them. -/
theorem Exact.pausing (a : α) : Exact .statement c 0 (Reading.pausing a) ts := by
  obtain ⟨semicolons, hSemicolons, hTokens⟩ := exists_semicolons ts
  refine .ok semicolons (skipSemicolons ts) a hTokens (Nat.zero_le _) hSemicolons.unfinished ?_
  intro used' rest' hUsed _ fuel _
  exact congrArg (fun rest => Except.ok (a, rest)) ((hSemicolons.of_sameShape hUsed).skip rest')

/-- Nothing is needed before semicolons. -/
theorem Completes.pausing (a : α) (hStop : ∀ us, Manner.statement.stop us → M.stop us) :
    Completes M .statement c (Reading.pausing a) :=
  .nothing a hStop fun _ _ _ _ => rfl

/-- Semicolons after a reader leave it a reader of this kind, with the manner of
a statement. -/
theorem Exact.paused {read : Reader α} (h : Exact M c n read ts) (hLeft : M.left = id)
    (hStop : ∀ us, Manner.statement.stop us → M.stop us) :
    Exact .statement c n (Reading.paused read) ts :=
  h.chain (fun _ _ us => by rw [hLeft]; rfl) (fun a _ _ => .pausing a) (fun _ => hStop)
    (fun a => .pausing a hStop) ⟨Nat.le_refl c, Nat.le_add_right c 4, Nat.le_add_right c _⟩

/-- What completes a reader completes it with its semicolons. -/
theorem Completes.paused {read : Reader α} (h : Completes M N c read) (hLeft : N.left = id)
    (hStop : ∀ us, Manner.statement.stop us → N.stop us) :
    Completes M .statement c (Reading.paused read) :=
  h.chain (fun _ _ us => by rw [hLeft]; rfl) (fun a => .pausing a hStop) (Nat.le_refl c)
    (Nat.le_refl c)

/-- A reader that passes over semicolons first. -/
theorem Exact.afterSemicolons {read : Reader α} (h : Exact M c (n + 1) read (skipSemicolons ts))
    (hRead : ∀ fuel us, read fuel (skipSemicolons us) = read fuel us)
    (hMore : Completes .closed M c read) : Exact M c (n + 1) read ts := by
  obtain ⟨semicolons, hSemicolons, hTokens⟩ := exists_semicolons ts
  have hGives {former us : List Token} {r : Except Failure (α × List Token)}
      (hFormer : AreSemicolons former) (hGiven : Gives c read us r) :
      Gives c read (former ++ us) r := by
    intro fuel hFuel
    rw [List.length_append] at hFuel
    rw [← hRead, hFormer.skip, hRead]
    exact hGiven fuel (by omega)
  cases h with
  | ok used rest a tokens takes unfinished same =>
      refine .ok (semicolons ++ used) rest a ?_ ?_ (hSemicolons.unfinished.append unfinished) ?_
      · rw [hTokens, tokens, List.append_assoc]
      · rw [List.length_append]
        omega
      · intro used' rest' hUsed hRest
        obtain ⟨former, latter, rfl, hFormer, hLatter⟩ := hUsed.append
        rw [List.append_assoc]
        exact hGives (hSemicolons.of_sameShape hFormer) (same latter rest' hLatter hRest)
  | error used rest cause tokens unfinished same viable =>
      refine .error (semicolons ++ used) rest cause ?_ (hSemicolons.unfinished.append unfinished)
        ?_ fun _ => ?_
      · rw [hTokens, tokens, List.append_assoc]
      · intro used' rest' hUsed hRest
        obtain ⟨former, latter, rfl, hFormer, hLatter⟩ := hUsed.append
        rw [List.append_assoc]
        exact hGives (hSemicolons.of_sameShape hFormer) (same latter rest' hLatter hRest)
      · cases used with
        -- The reader itself has taken nothing, so it is not said to be viable; but the semicolons
        -- were taken.
        | nil =>
            obtain ⟨more, a, hUnfinished, hRead⟩ := hMore
            refine ⟨more, a, hUnfinished, fun rest' hRest => ?_⟩
            rw [List.append_nil]
            exact hGives hSemicolons (hRead rest' hRest).2
        | cons t used =>
            obtain ⟨more, a, hUnfinished, hRead⟩ := viable (List.cons_ne_nil t used)
            refine ⟨more, a, hUnfinished, fun rest' hRest => ?_⟩
            rw [List.append_assoc]
            exact hGives hSemicolons (hRead rest' hRest)

/-- Passes over semicolons first. -/
def skipping (read : Reader α) : Reader α := fun fuel ts => read fuel (skipSemicolons ts)

/-- Semicolons that come first count as taken, and the reader proper starts
behind them. -/
theorem Exact.skipping {read : Reader α} (h : Exact M c (n + 1) read (skipSemicolons ts))
    (hMore : Completes .closed M c (Reading.skipping read)) :
    Exact M c (n + 1) (Reading.skipping read) ts := by
  have hInner : Exact M c (n + 1) (Reading.skipping read) (skipSemicolons ts) := by
    refine h.branch fun fuel us hPeek => ?_
    have hPause : (peek us).isOperator ";" = false := by
      rw [Token.isOperator_eq hPeek, peek_skipSemicolons]
    rw [Reading.skipping, skipSemicolons_of_pause hPause]
  exact hInner.afterSemicolons
    (fun _ us => by rw [Reading.skipping, skipSemicolons_skip]; rfl) hMore

/-- Semicolons after two readers come after the second of them. -/
theorem paused_chain (read : Reader α) (next : α → Reader β) :
    paused (chain read next) = chain read fun a => paused (next a) := by
  funext fuel ts
  unfold paused chain
  cases read fuel ts <;> rfl

/-- The value that is read has no part in the semicolons. -/
theorem paused_mapped (f : α → β) (read : Reader α) :
    paused (mapped f read) = mapped f (paused read) := by
  funext fuel ts
  unfold paused mapped chain
  cases read fuel ts <;> rfl

/-- Whichever way a choice goes, semicolons may come after it. -/
theorem paused_ifNext (kind : Token.Kind) (text : String) (yes no : Reader α) :
    paused (ifNext kind text yes no) = ifNext kind text (paused yes) (paused no) := by
  funext fuel ts
  unfold paused chain ifNext
  split <;> rfl

/-- Where semicolons were taken there are none to take. -/
theorem paused_paused (read : Reader α) : paused (paused read) = paused read := by
  funext fuel ts
  unfold paused chain
  cases read fuel ts with
  | error e => rfl
  | ok r => exact congrArg (fun rest => Except.ok (r.1, rest)) (skipSemicolons_skip r.2)

/-- Semicolons that were passed over are not met again. -/
theorem chain_paused (read : Reader α) (next : α → Reader β) :
    chain (paused read) next = chain (paused read) fun a => skipping (next a) := by
  funext fuel ts
  unfold paused chain skipping
  cases read fuel ts with
  | error e => rfl
  | ok r => exact congrArg (next r.1 fuel) (skipSemicolons_skip r.2).symm

/-- Opening a reader does not change what comes after it. -/
theorem paused_step {read inner : Reader α} (h : ∀ fuel us, read (fuel + 1) us = inner fuel us)
    (fuel : Nat) (us : List Token) : paused read (fuel + 1) us = paused inner fuel us := by
  unfold paused chain
  rw [h]
  rfl

/-! The readers as they are put together. -/

/-- A sign has to come next. -/
def expecting (text : String) (next : Reader α) : Reader α :=
  ifNext .operator text next (rejecting (.expectedToken ("'" ++ text ++ "'")))

/-- The check of a sign, in the form that can be chained. -/
theorem expectOperator_bind (text : String) (next : Reader α) (fuel : Nat) (ts : List Token) :
    (expectOperator text ts >>= next fuel) = expecting text next fuel ts := by
  unfold expectOperator expecting ifNext Token.isOperator Token.isA
  split <;> rfl

abbrev value : Reader Expr := fun _ => Expr.read 0

abbrev anyName : Reader String := fun _ => expectName

/-- A variable has a name and may have a value. Again each reader is opened
once, as a chain of smaller ones. -/
theorem letVar_eq : (fun _ => letVar) = chain anyName fun name => ifNext .operator "="
    (mapped (fun init => .letVar name (some init)) value) (given (.letVar name none)) := by
  funext fuel ts
  rw [letVar]
  rfl

/-- A constant has a name and must have a value. -/
theorem constVar_eq : (fun _ => constVar) =
    chain anyName fun name => expecting "=" (mapped (.constVar name) value) := by
  funext fuel ts
  simp only [constVar, chain, ← expectOperator_bind]
  rfl

/-- Names go on after a comma and end before anything else. -/
theorem names_eq (fuel : Nat) (ts : List Token) :
    names (fuel + 1) ts = chain anyName
      (fun first => ifNext .operator "," (mapped (first :: ·) names) (given [first])) fuel ts := by
  rw [names]
  rfl

/-- Parameters, from after the opening parenthesis. -/
def parameters (name : String) : Reader (String × List String) :=
  ifNext .operator ")" (given (name, []))
    (chain (fun _ us => names (budget us) us) fun params => expecting ")" (given (name, params)))

/-- A heading is a name and its parameters in parentheses. -/
theorem signature_eq :
    (fun _ => signature) = chain anyName fun name => expecting "(" (parameters name) := by
  funext fuel ts
  simp only [signature, chain, ← expectOperator_bind]
  refine congrArg (expectName ts >>= ·) (funext fun read => ?_)
  obtain ⟨name, us⟩ := read
  refine congrArg (expectOperator "(" us >>= ·) (funext fun vs => ?_)
  unfold parameters ifNext
  simp only [chain, ← expectOperator_bind]
  rfl

/-- A statement without a keyword is an expression. -/
theorem simple_eq : (fun _ => simple) = mapped Expr.asStatement value := by
  funext fuel ts
  unfold simple mapped chain
  refine congrArg (Expr.read 0 ts >>= ·) (funext fun read => ?_)
  obtain ⟨e, rest⟩ := read
  cases e <;> rfl

/-- Something else than a value comes next. -/
def valueless (t : Token) : Bool :=
  t.isFinish || t.kind == .keyword || t.isOperator ";" || t.isOperator "\x7d"

/-- The statement that a token begins, without the semicolons after it. -/
def clause : Reader Statement := fun fuel ts =>
  match (peek ts).kind with
  | .finish => reject .emptyInput (peek ts)
  | .keyword => phrase fuel (peek ts) ts.tail
  | _ => if (peek ts).isOperator "\x7b" then mapped .block block fuel ts else simple ts

/-- A brace opens a block. -/
theorem clause_opening (h : (peek ts).isOperator "\x7b" = true) (fuel : Nat) :
    clause fuel ts = mapped .block block fuel ts := by
  simp only [clause, kind_of_isOperator h, h, if_true]

theorem clause_simple (hFinish : (peek ts).kind ≠ .finish) (hWord : (peek ts).kind ≠ .keyword)
    (hOpens : (peek ts).isOperator "\x7b" = false) (fuel : Nat) : clause fuel ts = simple ts := by
  unfold clause
  split
  · next hKind => exact absurd hKind hFinish
  · next hKind => exact absurd hKind hWord
  · rw [if_neg (Bool.eq_false_iff.mp hOpens)]

/-- A statement is what its first token begins, and semicolons. -/
theorem statement_eq (fuel : Nat) (ts : List Token) :
    statement (fuel + 1) ts = paused clause fuel ts := by
  rw [statement]
  change _ = clause fuel ts >>= fun r => .ok (r.1, skipSemicolons r.2)
  unfold clause
  cases (peek ts).kind with
  | finish => rfl
  | keyword => rfl
  | _ =>
      dsimp only
      split
      · unfold mapped chain
        cases block fuel ts <;> rfl
      · rfl

/-- What a conditional does after its first branch. -/
def alternative (test : Expr) (yes : Statement) (no : Reader Statement) : Reader Statement :=
  ifNext .keyword "else" (mapped (.ifElse test yes) no) (given (.ifThen test yes))

/-- The second branch of a conditional. -/
def otherwise : Reader Statement := ifNext .keyword "if" conditional body

/-- The reader of a conditional passes over semicolons before it looks for a
second branch. -/
theorem conditional_eq (fuel : Nat) (ts : List Token) :
    conditional (fuel + 1) ts = chain value (fun test => chain (paused body) fun yes =>
      alternative test yes otherwise) fuel ts := by
  rw [conditional]
  refine congrArg (Expr.read 0 ts >>= ·) (funext fun (test, us) => ?_)
  dsimp only [chain, paused]
  cases body fuel us with
  | error e => rfl
  | ok r =>
      have hWord (t : Token) (text : String) : t.isKeyword text = t.isA .keyword text := rfl
      change _ = alternative test r.1 otherwise fuel (skipSemicolons r.2)
      dsimp only [bind, Except.bind, alternative, ifNext, mapped, chain, otherwise]
      rw [hWord, hWord]
      split
      · cases (peek (skipSemicolons r.2).tail).isA .keyword "if" <;> rfl
      · rfl

/-- A subroutine has a heading and a block. -/
theorem subroutine_eq (kind : Subroutine.Kind) (fuel : Nat) (ts : List Token) :
    subroutine (fuel + 1) kind ts = chain (fun _ => signature) (fun heading =>
      mapped (.define kind heading.1 heading.2) block) fuel ts := by
  rw [subroutine]
  rfl

/-- A block or a statement. -/
def blockOrStatement : Reader Statement := fun fuel ts =>
  if (peek ts).isOperator "\x7b" then mapped .block block fuel ts else statement fuel ts

/-- Semicolons may stand before a body. -/
theorem body_eq (fuel : Nat) (ts : List Token) :
    body (fuel + 1) ts = skipping blockOrStatement fuel ts := by
  rw [body]
  rfl

/-- A body with the semicolons after it. -/
theorem paused_body (fuel : Nat) (ts : List Token) :
    paused body (fuel + 1) ts = skipping (paused blockOrStatement) fuel ts :=
  paused_step body_eq fuel ts

/-- A statement has taken its semicolons itself. -/
theorem paused_statement : paused statement = statement := by
  funext fuel ts
  cases fuel with
  | zero => rfl
  | succ fuel => rw [paused_step statement_eq, paused_paused, statement_eq]

theorem block_eq (fuel : Nat) (ts : List Token) :
    block (fuel + 1) ts =
      ifNext .operator "\x7b" blockRest (rejecting .expectedBlock) fuel ts := by
  rw [block]
  rfl

/-- The semicolons after the first branch are passed over once, either for the
second branch or for the end of the statement. -/
theorem paused_conditional (fuel : Nat) (ts : List Token) :
    paused conditional (fuel + 1) ts = chain value (fun test => chain (paused body) fun yes =>
      skipping (paused (alternative test yes otherwise))) fuel ts := by
  rw [paused_step conditional_eq, paused_chain]
  refine congrArg (chain value · fuel ts) (funext fun test => ?_)
  rw [paused_chain, chain_paused]

/-- Without a second branch only the semicolons remain to be taken. -/
theorem paused_alternative (test : Expr) (yes : Statement) (no : Reader Statement) :
    paused (alternative test yes no) =
      ifNext .keyword "else" (mapped (.ifElse test yes) (paused no))
        (pausing (.ifThen test yes)) := by
  rw [alternative, paused_ifNext, paused_mapped]
  rfl

theorem paused_otherwise :
    paused otherwise = ifNext .keyword "if" (paused conditional) (paused body) :=
  paused_ifNext _ _ _ _

/-- Another statement of a block. -/
def blockMore : Reader (List Statement) := fun fuel ts =>
  if (peek ts).isFinish then reject .expectedBlock (peek ts)
  else chain statement (fun first => mapped (first :: ·) blockRest) fuel ts

/-- The rest of a block is a brace, or a statement and the rest after it. -/
theorem blockRest_eq (fuel : Nat) (ts : List Token) :
    blockRest (fuel + 1) ts =
      skipping (ifNext .operator "\x7d" (given []) blockMore) fuel ts := by
  rw [blockRest]
  rfl

/-- Semicolons before the rest of a block do not matter. -/
theorem blockRest_skip (fuel : Nat) (ts : List Token) :
    blockRest fuel (skipSemicolons ts) = blockRest fuel ts := by
  cases fuel with
  | zero => rfl
  | succ fuel => rw [blockRest_eq, blockRest_eq, skipping, skipping, skipSemicolons_skip]

/-! The readers that are no part of the recursion. -/

theorem optional_of_statement (us : List Token) (hStop : Manner.statement.stop us) :
    Manner.optional.stop us := hStop.1

theorem expression_of_optional (us : List Token) (hStop : Manner.optional.stop us) :
    Manner.expression.stop us := Token.Among.mono hStop (by decide)

/-- What stops a statement stops the expression at its end. -/
theorem expression_of_statement (us : List Token) (hStop : Manner.statement.stop us) :
    Manner.expression.stop us := expression_of_optional us (optional_of_statement us hStop)

/-- A name is taken whatever its text, and any other token is rejected. -/
theorem anyName_exact : Exact .closed c 1 anyName ts := by
  by_cases hKind : (peek ts).kind = .name
  · have hTokens := eq_cons_of_kind hKind (by decide)
    rw [hTokens]
    refine (Exact.given (peek ts).text rfl).token (d := 0) (by simp [Token.isFinish, hKind]) ?_
      (.given _ rfl fun _ hStop => hStop) (Nat.zero_le _)
    intro fuel t us hToken
    have hName : (peek (t :: us)).kind = .name := (Token.kind_eq hToken).trans hKind
    rw [anyName, expectName, if_pos hName, peek_cons, Token.text_eq hToken]
    rfl
  · refine .reject .expectedIdentifier fun us hPeek fuel _ => if_neg ?_
    rwa [Token.kind_eq hPeek]

theorem anyName_completes : Completes .closed .closed c anyName :=
  ⟨[Token.identifier "x"], "x", .cons rfl unfinished_nil, fun _ _ => ⟨trivial, fun _ _ => rfl⟩⟩

/-- A name first: what follows is read from fewer tokens. -/
theorem afterName_exact {next : String → Reader α}
    (h : ∀ name us, us.length + 1 ≤ ts.length → Exact M 0 n (next name) us)
    (hMore : ∀ name, Completes .closed M 0 (next name)) : Exact M 0 1 (chain anyName next) ts :=
  ((anyName_exact (c := 0)).chain (fun _ _ _ => rfl) h (fun _ _ _ => trivial) hMore
    (by omega)).mono (Nat.le_add_right 1 n)

theorem afterName_completes {next : String → Reader α}
    (h : ∀ name, Completes .closed M 0 (next name)) : Completes .closed M 0 (chain anyName next) :=
  (anyName_completes (c := 0)).chain (fun _ _ _ => rfl) h (Nat.le_refl 0) (Nat.le_refl 0)

/-- A sign first: it is taken, or the token in its place is rejected. -/
theorem expecting_exact {text : String} {next : Reader α}
    (h : ∀ us, us.length + 1 ≤ ts.length → Exact M d n next us)
    (hMore : Completes .closed M d next) (hc : d ≤ c + 4) :
    Exact M c (n + 1) (expecting text next) ts :=
  .ifNext h hMore (by decide) hc (fun hNext => .ifNext_rejecting hNext) (Nat.le_refl _)

/-- The sign itself is part of what completes it. -/
theorem expecting_completes {text : String} {next : Reader α} (h : Completes .closed N d next)
    (hStop : ∀ us, M.stop (Token.sign text :: us)) (hc : d ≤ c + 4) :
    Completes M N c (expecting text next) :=
  .ifNext h (by decide) hStop hc

/-- A variable needs no value. -/
theorem initial_completes (name : String) : Completes .closed .expression 0
    (ifNext .operator "=" (mapped (fun init => Statement.letVar name (some init)) value)
      (given (.letVar name none))) :=
  .ifNext_given _ rfl (fun _ _ => trivial) (not_isA_of_closers (by decide))

/-- The token after the name decides whether a value is read. -/
theorem letVar_exact (ts : List Token) : Exact .expression 0 1 (fun _ => letVar) ts := by
  rw [letVar_eq]
  refine afterName_exact (n := 0) (fun name us _ => ?_) initial_completes
  exact .ifNext (fun vs _ => (read_exact 0 vs).mapped _) ((read_completes 0).mapped _) (by decide)
    (Nat.zero_le 4) (fun hNext => .ifNext_given _ hNext rfl (not_isA_of_closers (by decide)))
    (Nat.zero_le 2)

theorem letVar_completes : Completes .closed .expression 0 (fun _ => letVar) := by
  rw [letVar_eq]
  exact afterName_completes initial_completes

/-- A constant is completed by its sign and a value. -/
theorem final_completes (name : String) :
    Completes .closed .expression 0 (expecting "=" (mapped (Statement.constVar name) value)) :=
  expecting_completes ((read_completes 0).mapped _) (fun _ => trivial) (Nat.zero_le 4)

/-- A constant without a value is rejected where the sign should be. -/
theorem constVar_exact (ts : List Token) : Exact .expression 0 1 (fun _ => constVar) ts := by
  rw [constVar_eq]
  refine afterName_exact (n := 2) (fun name us _ => ?_) final_completes
  exact expecting_exact (fun vs _ => (read_exact 0 vs).mapped _) ((read_completes 0).mapped _)
    (Nat.zero_le 4)

theorem constVar_completes : Completes .closed .expression 0 (fun _ => constVar) := by
  rw [constVar_eq]
  exact afterName_completes final_completes

/-- Names need no others after them. -/
theorem moreNames_completes (first : String) : Completes .closed .expression 0
    (ifNext .operator "," (mapped (first :: ·) names) (given [first])) :=
  .ifNext_given _ rfl (fun _ _ => trivial) (not_isA_of_closers (by decide))

theorem names_completes : Completes .closed .expression 1 names :=
  (afterName_completes moreNames_completes).step names_eq

/-- The induction is on the number of tokens. -/
theorem names_exact (ts : List Token) : Exact .expression 1 1 names ts := by
  induction hLength : ts.length using Nat.strongRecOn generalizing ts with
  | ind m ih =>
      have hNext (first : String) (us : List Token) (hLess : us.length + 1 ≤ ts.length) :
          Exact .expression 0 0
            (ifNext .operator "," (mapped (first :: ·) names) (given [first])) us :=
        .ifNext (fun vs _ => (ih vs.length (by omega) vs rfl).mapped (first :: ·))
          (names_completes.mapped (first :: ·)) (by decide) (by omega)
          (fun hNext => .ifNext_given _ hNext rfl (not_isA_of_closers (by decide))) (Nat.zero_le 2)
      exact (afterName_exact hNext moreNames_completes).step names_eq

theorem parameters_completes (name : String) : Completes .closed .closed 0 (parameters name) :=
  .ifNext (.given (name, []) rfl fun _ _ => trivial) (by decide) (fun _ => trivial) (Nat.zero_le 4)

/-- Parameters close at once, or are names up to the parenthesis. -/
theorem parameters_exact (name : String) : Exact .closed 0 1 (parameters name) ts := by
  have hLast (params : List String) (us : List Token) :
      Exact .closed 0 1 (expecting ")" (given (name, params))) us :=
    expecting_exact (fun _ _ => .given _ rfl) (.given _ rfl fun _ hStop => hStop) (Nat.zero_le 4)
  have hMore (params : List String) :
      Completes .expression .closed 0 (expecting ")" (given (name, params))) :=
    expecting_completes (.given _ rfl fun _ hStop => hStop) (fun _ => .inr ⟨")", by decide, rfl⟩)
      (Nat.zero_le 4)
  have hListed := ((names_exact ts).ofBudget (by omega)).chain (c := 0) (fun _ _ _ => rfl)
    (fun params us _ => hLast params us) (fun hZero => absurd hZero (by decide)) hMore (by omega)
  exact .ifNext (fun _ _ => .given (name, []) rfl) (.given _ rfl fun _ hStop => hStop) (by decide)
    (Nat.zero_le 4) (fun hNext => (hListed.ifNext_not hNext).mono (by omega)) (Nat.le_refl 1)

theorem opened_completes (name : String) :
    Completes .closed .closed 0 (expecting "(" (parameters name)) :=
  expecting_completes (parameters_completes name) (fun _ => trivial) (Nat.zero_le 4)

/-- A heading takes at least its name. -/
theorem signature_exact (ts : List Token) : Exact .closed 0 1 (fun _ => signature) ts := by
  rw [signature_eq]
  refine afterName_exact (n := 2) (fun name us _ => ?_) opened_completes
  exact expecting_exact (fun _ _ => parameters_exact name) (parameters_completes name)
    (Nat.zero_le 4)

theorem signature_completes : Completes .closed .closed 0 (fun _ => signature) := by
  rw [signature_eq]
  exact afterName_completes opened_completes

theorem simple_exact (ts : List Token) : Exact .expression 0 1 (fun _ => simple) ts := by
  rw [simple_eq]
  exact (read_exact 0 ts).mapped Expr.asStatement

/-- Before whatever ends a statement no value is read. -/
theorem valueless_of_stop (hStop : Manner.optional.stop us) : valueless (peek us) = true := by
  rcases hStop with hFinish | ⟨text, hText, hToken⟩
  · simp [valueless, hFinish]
  · simp only [List.mem_cons, List.not_mem_nil, or_false] at hText
    rcases hText with rfl | rfl <;> simp [valueless, hToken]

theorem valueless_eq {t t' : Token} (h : t'.shape = t.shape) : valueless t' = valueless t := by
  simp only [valueless, Token.isFinish_eq h, Token.kind_eq h, Token.isOperator_eq h]

/-- Whether a value follows is decided by the next token. If none follows,
nothing is taken. -/
theorem optionalExpression_exact (ts : List Token) :
    Exact .optional 0 0 (fun _ => optionalExpression) ts := by
  cases hNone : valueless (peek ts) with
  | true =>
      refine .stay none fun us hAllows fuel _ => if_pos ?_
      rcases hAllows with hPeek | hStop
      · exact (valueless_eq hPeek).trans hNone
      · exact valueless_of_stop hStop
  | false =>
      have hValue := ((read_exact 0 ts).mapped some).loosen (N := .optional) rfl
        expression_of_optional
      refine (hValue.branch fun fuel us hPeek => if_neg ?_).mono (Nat.zero_le 1)
      exact Bool.eq_false_iff.mp ((valueless_eq hPeek).trans hNone)

theorem optionalExpression_completes :
    Completes .closed .optional 0 (fun _ => optionalExpression) :=
  .nothing none (fun _ _ => trivial) fun _ hStop _ _ => if_pos (valueless_of_stop hStop)

/-! What completes the others. -/

/-- A brace completes a block at any point between its statements. -/
theorem closingBrace_completes (hStop : ∀ us, M.stop (Token.sign "\x7d" :: us)) :
    Completes M .closed 2 (skipping (ifNext .operator "\x7d" (given []) blockMore)) :=
  ⟨[Token.sign "\x7d"], [], .cons rfl unfinished_nil, fun rest _ => ⟨hStop rest, fun _ _ => rfl⟩⟩

theorem blockRest_completes (hStop : ∀ us, M.stop (Token.sign "\x7d" :: us)) :
    Completes M .closed 3 blockRest :=
  (closingBrace_completes hStop).step blockRest_eq

/-- Two braces complete a block that has not begun. -/
theorem block_completes (hStop : ∀ us, M.stop (Token.sign "\x7b" :: us)) :
    Completes M .closed 1 block := by
  have hInner : Completes M .closed 0
      (ifNext .operator "\x7b" blockRest (rejecting .expectedBlock)) :=
    .ifNext (blockRest_completes fun _ => trivial) (by decide) hStop (by omega)
  exact hInner.step block_eq

theorem blockOrStatement_completes (hStop : ∀ us, M.stop (Token.sign "\x7b" :: us)) :
    Completes M .statement 2 (skipping (paused blockOrStatement)) := by
  refine ⟨[Token.sign "\x7b", Token.sign "\x7d"], .block [], .cons rfl (.cons rfl unfinished_nil),
    fun rest _ => ⟨hStop _, fun fuel hFuel => ?_⟩⟩
  rw [List.length_append] at hFuel
  obtain ⟨fuel, rfl⟩ := Nat.exists_eq_add_of_le' (show 2 ≤ fuel by omega)
  rfl

/-- An empty block completes a body. -/
theorem body_completes (hStop : ∀ us, M.stop (Token.sign "\x7b" :: us)) :
    Completes M .statement 3 (paused body) :=
  (blockOrStatement_completes hStop).step paused_body

/-- A conditional is complete after its first branch. -/
theorem alternative_completes (test : Expr) (yes : Statement) (no : Reader Statement)
    (hStop : ∀ us, Manner.statement.stop us → M.stop us) :
    Completes M .statement c (skipping (paused (alternative test yes no))) := by
  refine .nothing (.ifThen test yes) hStop fun us hRest fuel _ => ?_
  have hElse : ¬ (peek (skipSemicolons us)).isA .keyword "else" = true :=
    Bool.eq_false_iff.mp hRest.2
  rw [skipping, paused_alternative, ifNext, if_neg hElse]
  exact congrArg (fun rest => Except.ok (Statement.ifThen test yes, rest)) (skipSemicolons_skip us)

/-- A brace ends the expression before it. -/
theorem expression_stop_opening (us : List Token) :
    Manner.expression.stop (Token.sign "\x7b" :: us) := .inr ⟨"\x7b", by decide, rfl⟩

theorem skipping_left (next : α → Reader β) (a : α) (fuel : Nat) (us : List Token) :
    skipping (next a) fuel (Manner.statement.left us) = skipping (next a) fuel us :=
  congrArg (next a fuel) (skipSemicolons_skip us)

theorem branches_completes (test : Expr) : Completes .expression .statement 3
    (chain (paused body) fun yes => skipping (paused (alternative test yes otherwise))) :=
  (body_completes expression_stop_opening).chain (skipping_left _)
    (fun yes => alternative_completes test yes otherwise fun _ hStop => hStop) (Nat.le_refl 3)
    (Nat.zero_le 3)

/-- A test and an empty block complete a conditional. -/
theorem conditional_completes : Completes .closed .statement 4 (paused conditional) :=
  ((read_completes 0).chain (fun _ _ _ => rfl) branches_completes (Nat.zero_le 3)
    (Nat.le_refl 3)).step paused_conditional

/-- After its test a loop is completed by an empty block. -/
theorem loop_completes (test : Expr) :
    Completes .expression .statement 3 (mapped (Statement.whileLoop test) (paused body)) :=
  (body_completes expression_stop_opening).mapped (Statement.whileLoop test)

theorem otherwise_completes : Completes .closed .statement 3 (paused otherwise) := by
  rw [paused_otherwise]
  exact .ifNext conditional_completes (by decide) (fun _ => trivial) (by omega)

/-- What follows a keyword, if a statement begins with it. -/
def begun : String → Option (Reader Statement)
  | "if" => some conditional
  | "while" => some (chain value fun test => mapped (.whileLoop test) body)
  | "break" => some (given .breakLoop)
  | "continue" => some (given .continueLoop)
  | "return" => some (mapped .returnValue fun _ => optionalExpression)
  | "end" => some (mapped .endRun fun _ => optionalExpression)
  | "let" => some fun _ => letVar
  | "const" => some fun _ => constVar
  | "fn" => some fun fuel => subroutine fuel .function
  | "proc" => some fun fuel => subroutine fuel .procedure
  | _ => none

/-- The keyword alone decides how a statement goes on. -/
theorem phrase_begun {t : Token} {read : Reader Statement} (h : begun t.text = some read)
    (fuel : Nat) (ts : List Token) : phrase (fuel + 1) t ts = read fuel ts := by
  rw [phrase]
  unfold begun at h
  split at h <;> simp_all <;> subst h <;> rfl

/-- Any other keyword is rejected, before anything is taken. -/
theorem phrase_rejects {t : Token} (h : begun t.text = none) (fuel : Nat) (ts : List Token) :
    phrase (fuel + 1) t ts = reject (.unexpectedToken none) t := by
  rw [phrase]
  unfold begun at h
  split at h <;> simp_all

theorem subroutine_completes (kind : Subroutine.Kind) :
    Completes .closed .closed 2 (fun fuel => subroutine fuel kind) := by
  have hInner := signature_completes.chain (c := 1) (fun _ _ _ => rfl) (fun heading =>
    (block_completes fun _ => trivial).mapped (Statement.define kind heading.1 heading.2))
    (Nat.zero_le 1) (Nat.le_refl 1)
  exact hInner.step (subroutine_eq kind)

/-- After each keyword there is something that completes the statement. One case
for each of them. -/
theorem begun_completes {text : String} {read : Reader Statement} (h : begun text = some read) :
    Completes .closed .statement 4 (paused read) := by
  have hLoop : Completes .closed .statement 4
      (paused (chain value fun test => mapped (Statement.whileLoop test) body)) := by
    simp only [paused_chain, paused_mapped]
    exact (read_completes 0).chain (fun _ _ _ => rfl) loop_completes (Nat.zero_le 4) (by omega)
  have hGiven (s : Statement) : Completes .closed .statement 4 (paused (given s)) :=
    .pausing s fun _ _ => trivial
  have hOptional (f : Option Expr → Statement) :
      Completes .closed .statement 4 (paused (mapped f fun _ => optionalExpression)) :=
    ((optionalExpression_completes.mapped f).paused rfl optional_of_statement).raise (Nat.zero_le 4)
  have hSubroutine (kind : Subroutine.Kind) :
      Completes .closed .statement 4 (paused fun fuel => subroutine fuel kind) :=
    ((subroutine_completes kind).paused rfl fun _ _ => trivial).raise (by omega)
  have hLet := (letVar_completes.paused rfl expression_of_statement).raise (Nat.zero_le 4)
  have hConst := (constVar_completes.paused rfl expression_of_statement).raise (Nat.zero_le 4)
  unfold begun at h
  split at h <;> cases h
  · exact conditional_completes
  · exact hLoop
  · exact hGiven _
  · exact hGiven _
  · exact hOptional _
  · exact hOptional _
  · exact hLet
  · exact hConst
  · exact hSubroutine _
  · exact hSubroutine _

/-! Each reader, when the others do so on fewer tokens. -/

/-- The readers of statements look one token ahead on fewer than `m` tokens. -/
structure Foresees (m : Nat) : Prop where
  conditional : ∀ {ts : List Token}, ts.length < m →
    Exact .statement 4 1 (paused Reading.conditional) ts
  body : ∀ {ts : List Token}, ts.length < m → Exact .statement 3 1 (paused Reading.body) ts
  blockRest : ∀ {ts : List Token}, ts.length < m → Exact .closed 3 1 Reading.blockRest ts

namespace Foresees

/-- A block has its brace or is rejected before any token is taken. -/
theorem block_exact (h : Foresees m) (hLe : ts.length ≤ m) : Exact .closed 1 1 block ts := by
  have hInner : Exact .closed 0 1
      (ifNext .operator "\x7b" Reading.blockRest (rejecting .expectedBlock)) ts :=
    .ifNext (fun us hLength => h.blockRest (by omega)) (blockRest_completes fun _ => trivial)
      (by decide) (by omega) (fun hNext => .ifNext_rejecting hNext) (by omega)
  exact hInner.step block_eq

/-- The second branch is another conditional or a body. -/
theorem otherwise_exact (h : Foresees m) (hLess : ts.length < m) :
    Exact .statement 3 1 (paused otherwise) ts := by
  rw [paused_otherwise]
  exact .ifNext (fun us hLength => h.conditional (by omega)) conditional_completes (by decide)
    (by omega) (fun hNext => (h.body hLess).ifNext_not hNext) (by omega)

/-- Without a second branch, the semicolons are taken and what follows them is
not the word for one. -/
theorem alternative_missing {test : Expr} {yes : Statement} {no : Reader Statement}
    (hElse : (peek (skipSemicolons ts)).isA .keyword "else" = false) :
    Exact .statement c 0 (skipping (paused (alternative test yes no))) ts := by
  obtain ⟨semicolons, hSemicolons, hTokens⟩ := exists_semicolons ts
  refine .ok semicolons (skipSemicolons ts) (.ifThen test yes) hTokens (Nat.zero_le _)
    hSemicolons.unfinished fun used' rest' hUsed hAllows fuel _ => ?_
  have hNot : (peek (skipSemicolons rest')).isA .keyword "else" = false := by
    rcases hAllows with hPeek | hStop
    · have hPause : (peek rest').isOperator ";" = false := by
        rw [Token.isOperator_eq hPeek, peek_skipSemicolons]
      rw [skipSemicolons_of_pause hPause, Token.isA_eq hPeek, hElse]
    · exact hStop.2
  rw [skipping, (hSemicolons.of_sameShape hUsed).skip, paused_alternative, ifNext,
    if_neg (Bool.eq_false_iff.mp hNot)]
  exact congrArg (fun rest => Except.ok (Statement.ifThen test yes, rest))
    (skipSemicolons_skip rest')

/-- If the word for a second branch is there, then it and the branch are taken. -/
theorem alternative_exact (h : Foresees m) (hLe : ts.length ≤ m) (test : Expr) (yes : Statement) :
    Exact .statement 0 0 (skipping (paused (alternative test yes otherwise))) ts := by
  cases hElse : (peek (skipSemicolons ts)).isA .keyword "else" with
  | false => exact alternative_missing hElse
  | true =>
      have hLength := (Passed.skipSemicolons ts).length_le
      have hWord : Exact .statement 0 1 (paused (alternative test yes otherwise))
          (skipSemicolons ts) := by
        rw [paused_alternative]
        exact .ifNext (fun us hLess => (h.otherwise_exact (by omega)).mapped _)
          (otherwise_completes.mapped _) (by decide) (by omega)
          (fun hNext => absurd (hNext.symm.trans hElse) (by decide)) (by omega)
      exact (hWord.skipping (alternative_completes test yes otherwise fun _ _ => trivial)).mono
        (Nat.zero_le 1)

/-- Test, first branch and second branch, each on what the one before it left. -/
theorem conditional_exact (h : Foresees m) (hLe : ts.length ≤ m) :
    Exact .statement 4 1 (paused Reading.conditional) ts := by
  have hBranches (test : Expr) (us : List Token) (hLess : us.length + 1 ≤ ts.length) :
      Exact .statement 3 1 (chain (paused Reading.body) fun yes =>
        skipping (paused (alternative test yes otherwise))) us :=
    (h.body (by omega)).chain (skipping_left _)
      (fun yes vs hLength => h.alternative_exact (by omega) test yes) (fun _ _ hStop => hStop)
      (fun yes => alternative_completes test yes otherwise fun _ hStop => hStop) (by omega)
  have hInner := (read_exact 0 ts).chain (c := 3) (fun _ _ _ => rfl) hBranches
    (fun hZero => absurd hZero (by decide)) branches_completes (by omega)
  exact (hInner.step paused_conditional).mono (by omega)

/-- A loop is a test and a body. -/
theorem loop_exact (h : Foresees m) (hLe : ts.length ≤ m) : Exact .statement 4 1
    (paused (chain value fun test => mapped (Statement.whileLoop test) Reading.body)) ts := by
  simp only [paused_chain, paused_mapped]
  exact ((read_exact 0 ts).chain (c := 4) (fun _ _ _ => rfl)
    (fun test us hLess => (h.body (by omega)).mapped (Statement.whileLoop test))
    (fun hZero => absurd hZero (by decide)) loop_completes (by omega)).mono (by omega)

theorem subroutine_exact (h : Foresees m) (hLe : ts.length ≤ m) (kind : Subroutine.Kind) :
    Exact .closed 2 1 (fun fuel => subroutine fuel kind) ts := by
  have hInner := (signature_exact ts).chain (c := 1) (k := 1) (N := .closed)
    (fun _ _ _ => rfl)
    (fun heading us hLess => (h.block_exact (by omega)).mapped
      (Statement.define kind heading.1 heading.2))
    (fun _ _ _ => trivial)
    (fun heading => (block_completes fun _ => trivial).mapped _) (by omega)
  exact (hInner.step (subroutine_eq kind)).mono (by omega)

/-- Each keyword on its own, and all of them with the semicolons at the end. -/
theorem begun_exact (h : Foresees m) (hLe : ts.length ≤ m) {text : String}
    {read : Reader Statement} (hBegun : begun text = some read) :
    Exact .statement 4 0 (paused read) ts := by
  have hGiven (s : Statement) : Exact .statement 4 0 (paused (given s)) ts := .pausing s
  have hOptional (f : Option Expr → Statement) :
      Exact .statement 4 0 (paused (mapped f fun _ => optionalExpression)) ts :=
    (((optionalExpression_exact ts).mapped f).paused rfl optional_of_statement).raise
      (Nat.zero_le 4)
  have hSubroutine (kind : Subroutine.Kind) :
      Exact .statement 4 1 (paused fun fuel => subroutine fuel kind) ts :=
    ((h.subroutine_exact hLe kind).paused rfl fun _ _ => trivial).raise (by omega)
  have hLet := ((letVar_exact ts).paused rfl expression_of_statement).raise (Nat.zero_le 4)
  have hConst := ((constVar_exact ts).paused rfl expression_of_statement).raise
    (Nat.zero_le 4)
  unfold begun at hBegun
  split at hBegun <;> cases hBegun
  · exact (h.conditional_exact hLe).mono (Nat.zero_le 1)
  · exact (h.loop_exact hLe).mono (Nat.zero_le 1)
  · exact hGiven _
  · exact hGiven _
  · exact hOptional _
  · exact hOptional _
  · exact hLet.mono (Nat.zero_le 1)
  · exact hConst.mono (Nat.zero_le 1)
  · exact (hSubroutine _).mono (Nat.zero_le 1)
  · exact (hSubroutine _).mono (Nat.zero_le 1)

/-- A statement that begins with a keyword. -/
theorem statement_word (h : Foresees m) {t : Token} (hLess : us.length < m)
    (hKind : t.kind = .keyword) : Exact .statement 1 1 (paused clause) (t :: us) := by
  have hClause (fuel : Nat) (t' : Token) (us' : List Token) (hToken : t'.shape = t.shape) :
      clause fuel (t' :: us') = phrase fuel t' us' := by
    simp only [clause, peek_cons, Token.kind_eq hToken, hKind, List.tail_cons]
  cases hBegun : begun t.text with
  | some read =>
      have hNext : Exact .statement 5 0 (paused fun fuel => phrase fuel t) us :=
        (h.begun_exact (Nat.le_of_lt hLess) hBegun).step (paused_step (phrase_begun hBegun))
      have hMore : Completes .closed .statement 5 (paused fun fuel => phrase fuel t) :=
        (begun_completes hBegun).step (paused_step (phrase_begun hBegun))
      refine hNext.token (by simp [Token.isFinish, hKind]) ?_ hMore (Nat.le_refl 5)
      intro fuel t' us' hToken
      have hPhrase : phrase fuel t' us' = phrase fuel t us' := by
        cases fuel with
        | zero => rfl
        | succ fuel =>
            rw [phrase_begun hBegun,
              phrase_begun ((congrArg begun (Token.text_eq hToken)).trans hBegun)]
      rw [paused, chain, hClause fuel t' us' hToken, hPhrase]
      rfl
  | none =>
      refine .reject (.unexpectedToken none) fun vs hPeek fuel hFuel => ?_
      cases vs with
      | nil => exact absurd ((Token.kind_eq hPeek).trans hKind) (by decide)
      | cons t' us' =>
          have hNone : begun t'.text = none := (congrArg begun (Token.text_eq hPeek)).trans hBegun
          rw [List.length_cons] at hFuel
          obtain ⟨fuel, rfl⟩ := Nat.exists_eq_add_of_le' (show 1 ≤ fuel by omega)
          rw [paused, chain, hClause _ t' us' hPeek, phrase_rejects hNone]
          rfl

/-- Four ways to begin: the end, a keyword, a brace, and an expression for the
rest. -/
theorem statement_exact (h : Foresees m) (hLe : ts.length ≤ m) :
    Exact .statement 2 1 statement ts := by
  suffices hInner : Exact .statement 1 1 (paused clause) ts from hInner.step statement_eq
  by_cases hFinish : (peek ts).kind = .finish
  · refine .reject .emptyInput fun us hPeek fuel _ => ?_
    simp only [paused, chain, clause, Token.kind_eq hPeek, hFinish]
    rfl
  · by_cases hWord : (peek ts).kind = .keyword
    · have hTokens := eq_cons_of_kind hWord (by decide)
      rw [hTokens] at hLe ⊢
      exact h.statement_word hLe hWord
    · cases hOpens : (peek ts).isOperator "\x7b" with
      | true =>
          have hBlock := ((h.block_exact hLe).mapped Statement.block).paused rfl fun _ _ => trivial
          refine hBlock.branch fun fuel us hPeek => ?_
          rw [paused, chain, clause_opening ((Token.isOperator_eq hPeek _).trans hOpens)]
          rfl
      | false =>
          have hSimple :=
            ((simple_exact ts).paused rfl expression_of_statement).raise (Nat.zero_le 1)
          refine hSimple.branch fun fuel us hPeek => ?_
          rw [paused, chain, clause_simple (by rwa [Token.kind_eq hPeek])
            (by rwa [Token.kind_eq hPeek]) ((Token.isOperator_eq hPeek _).trans hOpens)]
          rfl

/-- A body is read behind its semicolons, as a block or as a statement. -/
theorem body_exact (h : Foresees m) (hLe : ts.length ≤ m) :
    Exact .statement 3 1 (paused Reading.body) ts := by
  have hLength := (Passed.skipSemicolons ts).length_le
  have hEither : Exact .statement 2 1 (paused blockOrStatement) (skipSemicolons ts) := by
    cases hOpens : (peek (skipSemicolons ts)).isOperator "\x7b" with
    | true =>
        have hBlock : Exact .closed 1 1 block (skipSemicolons ts) := h.block_exact (by omega)
        have hPaused := ((hBlock.mapped Statement.block).paused rfl fun _ _ => trivial).raise
          (Nat.le_succ 1)
        refine hPaused.branch fun fuel us hPeek => ?_
        rw [paused, chain, blockOrStatement, if_pos ((Token.isOperator_eq hPeek _).trans hOpens)]
        rfl
    | false =>
        have hStatement : Exact .statement 2 1 statement (skipSemicolons ts) :=
          h.statement_exact (by omega)
        rw [← paused_statement] at hStatement
        refine hStatement.branch fun fuel us hPeek => ?_
        have hNot : (peek us).isOperator "\x7b" = false :=
          (Token.isOperator_eq hPeek _).trans hOpens
        rw [paused, chain, blockOrStatement, if_neg (Bool.eq_false_iff.mp hNot)]
        rfl
  exact (hEither.skipping (blockOrStatement_completes fun _ => trivial)).step paused_body

/-- Each turn takes a statement, so the rest of a block is read from fewer
tokens. The end of all tokens is rejected. -/
theorem blockRest_exact (h : Foresees m) (hLe : ts.length ≤ m) :
    Exact .closed 3 1 Reading.blockRest ts := by
  have hLength := (Passed.skipSemicolons ts).length_le
  have hMore (first : Statement) :
      Completes .statement .closed 3 (mapped (first :: ·) Reading.blockRest) :=
    (blockRest_completes (M := .statement) fun us => ⟨.inr ⟨"\x7d", by decide, rfl⟩, rfl⟩).mapped _
  have hAnother : Exact .closed 2 1 blockMore (skipSemicolons ts) := by
    cases hFinish : (peek (skipSemicolons ts)).isFinish with
    | true =>
        refine .reject .expectedBlock fun us hPeek fuel _ => if_pos ?_
        rw [Token.isFinish_eq hPeek, hFinish]
    | false =>
        have hStatement : Exact .statement 2 1 statement (skipSemicolons ts) :=
          h.statement_exact (by omega)
        have hBoth := hStatement.chain (N := .closed) (c := 2) (k := 1)
          (fun first fuel us => congrArg (· >>= _) (blockRest_skip fuel us))
          (fun first us hLess => (h.blockRest (by omega)).mapped (first :: ·))
          (fun hZero => absurd hZero (by decide)) hMore (by omega)
        refine (hBoth.branch fun fuel us hPeek => if_neg ?_).mono (by omega)
        rw [Token.isFinish_eq hPeek, hFinish]
        decide
  have hEither : Exact .closed 2 1 (ifNext .operator "\x7d" (given []) blockMore)
      (skipSemicolons ts) :=
    .ifNext (d := 0) (fun _ _ => .given [] rfl) (.given [] rfl fun _ hStop => hStop) (by decide)
      (by omega) (fun hNext => hAnother.ifNext_not hNext) (Nat.le_refl 1)
  exact (hEither.skipping (closingBrace_completes fun _ => trivial)).step blockRest_eq

end Foresees

/-- The induction on the number of tokens, with the three readers at once. -/
theorem foresees (m : Nat) : Foresees m := by
  induction m with
  | zero => constructor <;> intros <;> omega
  | succ m ih =>
      exact ⟨fun hLess => ih.conditional_exact (Nat.le_of_lt_succ hLess),
        fun hLess => ih.body_exact (Nat.le_of_lt_succ hLess),
        fun hLess => ih.blockRest_exact (Nat.le_of_lt_succ hLess)⟩

end Reading

end Reckoner
