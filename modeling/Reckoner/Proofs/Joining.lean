import Reckoner.Proofs.ErrorLocation
import Reckoner.Proofs.Locality
import Reckoner.Proofs.Scanning

/-! A session in pieces. Two texts that can be read, with a semicolon between
them, read as the statements of the one and then those of the other. Without a
limit on steps, they also run like one after the other: what a run leaves behind
besides the table makes no difference to the next. -/
namespace Reckoner

namespace Reading

variable {ts us rest former : List Token} {last : Token} {p ps qs : Program} {fuel fuel' : Nat}

/-- A larger budget does no harm. -/
theorem statements_mono (h : statements fuel ts = .ok p) (hLe : fuel ≤ fuel') :
    statements fuel' ts = .ok p := by
  induction fuel generalizing fuel' ts p with
  | zero => cases h
  | succ fuel ih =>
      obtain ⟨fuel', rfl⟩ := Nat.exists_eq_add_of_le' (Nat.le_trans (Nat.le_add_left 1 fuel) hLe)
      rw [statements] at h ⊢
      split at h
      · next hFinish =>
          rw [if_pos hFinish]
          exact h
      · next hFinish =>
          rw [if_neg hFinish]
          obtain ⟨⟨first, left⟩, hFirst, h⟩ := bind_ok h
          obtain ⟨more, hMore, hProgram⟩ := bind_ok h
          rw [hFirst]
          change statements fuel' left >>= _ = _
          rw [ih hMore (Nat.le_of_succ_le_succ hLe)]
          exact hProgram

/-- Tokens without a mark of the end stop before the mark. -/
theorem exists_former (h : former ++ [last] = us ++ rest) (hus : Unfinished us)
    (hLast : last.isFinish = true) :
    ∃ between, former = us ++ between ∧ rest = between ++ [last] := by
  rcases List.append_eq_append_iff.mp h with ⟨more, hUs, hMore⟩ | ⟨between, hFormer, hRest⟩
  · cases more with
    | nil =>
        rw [List.append_nil] at hUs
        exact ⟨[], by rw [hUs, List.append_nil], hMore.symm⟩
    | cons t more =>
        have hHead : last = t := (List.cons.inj hMore).1
        have hMember : last ∈ us := by
          rw [hUs, hHead]
          exact List.mem_append_right former List.mem_cons_self
        exact absurd (hus last hMember) (by simp [hLast])
  · exact ⟨between, hFormer, hRest⟩

/-- A statement that was read before the end is read in the same way before
anything at which a statement may stop. -/
theorem statement_before (hLast : last.isFinish = true) (hStop : Manner.statement.stop rest)
    {s : Statement} (h : statement (budget (former ++ [last])) (former ++ [last]) = .ok (s, us)) :
    ∃ used between, former = used ++ between ∧ 1 ≤ used.length ∧
      us = skipSemicolons (between ++ [last]) ∧
      statement (budget (former ++ rest)) (former ++ rest) =
        .ok (s, skipSemicolons (between ++ rest)) := by
  have hExact : Exact .statement 0 1 (fun _ us => statement (budget us) us) (former ++ [last]) :=
    ((foresees _).statement_exact (Nat.le_refl _)).ofBudget (by omega)
  cases hExact with
  | error used left cause tokens unfinished same viable =>
      have hError : statement (budget (used ++ left)) (used ++ left) = .error _ :=
        same used left (.refl used) rfl _ (Nat.le_refl _)
      rw [← tokens, h] at hError
      cases hError
  | ok used left a tokens takes unfinished same =>
      obtain ⟨between, rfl, rfl⟩ := exists_former tokens unfinished hLast
      have hRead (after : List Token)
          (hAfter : Manner.statement.Allows (between ++ [last]) (between ++ after)) :
          statement (budget (used ++ between ++ after)) (used ++ between ++ after) =
            .ok (a, skipSemicolons (between ++ after)) := by
        rw [List.append_assoc]
        exact same used (between ++ after) (.refl used) hAfter _ (Nat.le_refl _)
      cases h.symm.trans (hRead [last] (.inl rfl))
      refine ⟨used, between, rfl, takes, rfl, hRead rest ?_⟩
      cases between with
      | nil => exact .inr hStop
      | cons t between => exact .inl rfl

/-- The statements before the end, and then those that come instead of it. The
induction is on the budget of the first. -/
theorem statements_append (hFormer : Unfinished former) (hLast : last.isFinish = true)
    (hStop : Manner.statement.stop rest)
    (hps : statements fuel (skipSemicolons (former ++ [last])) = .ok ps)
    (hqs : statements fuel' (skipSemicolons rest) = .ok qs) :
    statements (former.length + fuel') (skipSemicolons (former ++ rest)) = .ok (ps ++ qs) := by
  induction fuel generalizing former ps with
  | zero => cases hps
  | succ fuel ih =>
      obtain ⟨semicolons, hSemicolons, hTokens⟩ := exists_semicolons former
      have hPause := peek_skipSemicolons former
      generalize skipSemicolons former = begun at hTokens hPause
      subst hTokens
      rw [List.append_assoc, hSemicolons.skip] at hps ⊢
      cases begun with
      -- Nothing but semicolons is left of the first text, so the second one begins here.
      | nil =>
          have hEnd : skipSemicolons [last] = [last] := skipSemicolons_of_finish hLast
          rw [List.nil_append, hEnd, statements, if_pos (by exact hLast)] at hps
          cases hps
          exact statements_mono hqs (Nat.le_add_left _ _)
      | cons t begun =>
          have hFirst : t.isFinish = false :=
            hFormer t (List.mem_append_right semicolons List.mem_cons_self)
          have hSkip (after : List Token) :
              skipSemicolons (t :: begun ++ after) = t :: begun ++ after :=
            skipSemicolons_of_pause hPause
          have hNot : ¬ t.isFinish = true := Bool.eq_false_iff.mp hFirst
          rw [hSkip] at hps ⊢
          rw [statements, if_neg (by exact hNot)] at hps
          obtain ⟨⟨s, us⟩, hRead, hps⟩ := bind_ok hps
          obtain ⟨more, hMore, hps⟩ := bind_ok hps
          cases hps
          obtain ⟨used, between, hBegun, hTakes, rfl, hStatement⟩ :=
            statement_before hLast hStop hRead
          have hBetween : Unfinished between := fun u hu =>
            hFormer u (List.mem_append_right semicolons (hBegun ▸ List.mem_append_right used hu))
          have hLength : (semicolons ++ t :: begun).length =
              (semicolons.length + (used.length - 1) + between.length) + 1 := by
            rw [List.length_append, hBegun, List.length_append]
            omega
          rw [hLength, Nat.add_right_comm, statements, if_neg (by exact hNot), hStatement]
          change statements _ (skipSemicolons (between ++ rest)) >>= _ = _
          rw [statements_mono (ih hBetween hMore) (by omega)]
          rfl

theorem statement_else (h : (peek ts).isKeyword "else" = true) (fuel : Nat) (s : Statement) :
    statement fuel ts ≠ .ok (s, us) := by
  obtain ⟨hKind, hText⟩ : (peek ts).kind = .keyword ∧ (peek ts).text = "else" := by
    simpa [Token.isKeyword] using h
  intro hRead
  cases fuel with
  | zero => cases hRead
  | succ fuel =>
      rw [statement] at hRead
      dsimp only at hRead
      rw [hKind] at hRead
      obtain ⟨_, hPhrase, -⟩ := bind_ok hRead
      cases fuel with
      | zero => cases hPhrase
      | succ fuel =>
          rw [phrase, hText] at hPhrase
          cases hPhrase

/-- What was read as a program begins with a statement. -/
theorem ofTokens_ok (h : Program.ofTokens ts = .ok p) :
    (peek (skipSemicolons ts)).isFinish = false ∧
      (peek (skipSemicolons ts)).isKeyword "else" = false ∧ p ≠ [] ∧
      statements (budget (skipSemicolons ts)) (skipSemicolons ts) = .ok p := by
  unfold Program.ofTokens at h
  dsimp only at h
  split at h
  · cases h
  · next hFinish =>
      have hStatements := h
      rw [budget, statements, if_neg hFinish] at h
      obtain ⟨⟨first, left⟩, hFirst, h⟩ := bind_ok h
      obtain ⟨more, -, hProgram⟩ := bind_ok h
      cases hProgram
      refine ⟨Bool.eq_false_iff.mpr hFinish, ?_, List.cons_ne_nil _ _, hStatements⟩
      exact Bool.eq_false_iff.mpr fun hElse => statement_else hElse _ _ hFirst

/-- A semicolon takes the place of the end. -/
theorem ofTokens_append {semicolon : Token} (hFormer : Unfinished former)
    (hLast : last.isFinish = true) (hps : Program.ofTokens (former ++ [last]) = .ok ps)
    (hSemicolon : semicolon.isOperator ";" = true) (hqs : Program.ofTokens rest = .ok qs) :
    Program.ofTokens (former ++ semicolon :: rest) = .ok (ps ++ qs) := by
  obtain ⟨hBegins, -, -, hFirst⟩ := ofTokens_ok hps
  obtain ⟨-, hElse, -, hSecond⟩ := ofTokens_ok hqs
  have hRest : skipSemicolons (semicolon :: rest) = skipSemicolons rest :=
    List.dropWhile_cons_of_pos hSemicolon
  have hStop : Manner.statement.stop (semicolon :: rest) := by
    refine ⟨.inr ⟨";", List.mem_cons_self, hSemicolon⟩, ?_⟩
    rw [hRest]
    exact hElse
  obtain ⟨semicolons, hSemicolons, hTokens⟩ := exists_semicolons former
  have hPause := peek_skipSemicolons former
  generalize skipSemicolons former = begun at hTokens hPause
  subst hTokens
  rw [List.append_assoc, hSemicolons.skip] at hBegins hFirst
  rw [← hRest] at hSecond
  have hBegun : Unfinished begun := fun t ht => hFormer t (List.mem_append_right semicolons ht)
  have hAll := statements_append hBegun hLast hStop hFirst hSecond
  unfold Program.ofTokens
  dsimp only
  rw [List.append_assoc, hSemicolons.skip]
  cases begun with
  | nil =>
      have hEnd : skipSemicolons [last] = [last] := skipSemicolons_of_finish hLast
      rw [List.nil_append, hEnd] at hBegins
      exact absurd (hBegins.symm.trans hLast) (by decide)
  | cons t begun =>
      have hWhole : skipSemicolons (t :: begun ++ semicolon :: rest) =
          t :: begun ++ semicolon :: rest := skipSemicolons_of_pause hPause
      have hNot : ¬ t.isFinish = true := Bool.eq_false_iff.mp (hBegun t List.mem_cons_self)
      have hShorter := (Passed.skipSemicolons rest).length_le
      rw [hWhole] at hAll ⊢
      rw [if_neg (by exact hNot)]
      refine statements_mono hAll ?_
      rw [hRest, budget, budget, List.length_append, List.length_cons, List.length_cons]
      omega

/-- The shapes of the tokens are all that matters. -/
theorem Exact.ok_of_sameShape {α : Type} {c n : Nat} {read : List Token → Except Failure α} {a : α}
    (h : Exact .whole c n (wholly read) ts) (hShape : SameShape us ts) (hOk : read ts = .ok a) :
    read us = .ok a := by
  cases h with
  | error used rest cause tokens unfinished same viable =>
      have hError := wholly_error.mp (same used rest (.refl used) rfl _ (Nat.le_refl _))
      rw [← tokens, hOk] at hError
      cases hError
  | ok used rest b tokens takes unfinished same =>
      have hSame := wholly_ok (same used rest (.refl used) (.inl rfl) _ (Nat.le_refl _))
      rw [← tokens, hOk] at hSame
      cases hSame
      rw [tokens] at hShape
      obtain ⟨first, second, rfl, hFirst, hSecond⟩ := hShape.append
      have hNext : (peek second).shape = (peek rest).shape := by
        simpa using peek_shape hSecond (rfl : (peek []).shape = _)
      exact wholly_ok (same first second hFirst (.inl hNext) _ (Nat.le_refl _))

end Reading

open Reading Attempt

/-- The statements of the one text and then those of the other. -/
theorem Program.ofText_joined {p q : String} {ps qs : Program} (hp : Program.ofText p = .ok ps)
    (hq : Program.ofText q = .ok qs) (hComment : Lexicon.endsInComment p = false) :
    Program.ofText (joined p q) = .ok (ps ++ qs) := by
  obtain ⟨former, latter, semicolon, hFormer, hFirst, hSemicolon, hLatter, hJoined⟩ :=
    tokenize_joined p q hComment
  rw [ofText, hFirst] at hp
  rw [ofText, hJoined]
  refine ofTokens_append hFormer rfl hp ?_ ((program_exact _).ok_of_sameShape hLatter hq)
  rw [Token.isOperator_eq hSemicolon]
  rfl

/-! Running on. -/

namespace Program

variable {policy : Policy} {ps qs : Program} {value given : Option Float} {m m' : Machine}

/-- A program that came to its end without an `end` statement goes on with the
statements that are added to it. -/
theorem runOn_append (h : runOn (ps.execute policy value) m = (.ok given, m'))
    (hExit : m'.run.exit = none) :
    runOn (Program.execute policy (ps ++ qs) value) m = runOn (qs.execute policy given) m' := by
  induction ps generalizing value m with
  | nil =>
      cases h
      rfl
  | cons s rest ih =>
      obtain ⟨outcome, middle, hFirst, h⟩ := bind_ok_iff.mp h
      rw [List.cons_append, execute, runOn_bind, hFirst]
      rw [runOn_bind, runOn_get] at h
      dsimp only at h ⊢
      rw [runOn_bind, runOn_get]
      obtain ⟨result, flow⟩ := outcome
      dsimp only at h ⊢
      cases hEnded : middle.run.exit with
      | some final =>
          rw [hEnded] at h
          cases h
          exact absurd (hEnded.symm.trans hExit) (by simp)
      | none =>
          rw [hEnded] at h
          cases flow with
          | normal => exact ih h
          | breaking => cases h
          | continuing => cases h
          | returning => exact ih h

/-- The same for whole runs, where there are statements to go on with. -/
theorem run_append (hqs : qs ≠ []) (h : (ps.run policy m).1 = .ok given)
    (hExit : (ps.run policy m).2.run.exit = none) :
    Program.run policy (ps ++ qs) m = qs.run policy (ps.run policy m).2 := by
  have hFirst : runOn (ps.execute policy none) m = (.ok given, (ps.run policy m).2) := by
    rw [← h]
    rfl
  have hValue : qs.execute policy given = qs.execute policy none := by
    cases qs with
    | nil => exact absurd rfl hqs
    | cons s rest => rfl
  calc Program.run policy (ps ++ qs) m
      = runOn (qs.execute policy given) (ps.run policy m).2 := runOn_append hFirst hExit
    _ = qs.run policy (ps.run policy m).2 := by rw [hValue]; rfl

end Program

/-- Runs that differ in the number of steps at most. -/
structure Run.SameButSteps (r r' : Run) : Prop where
  exit : r'.exit = r.exit
  drawn : r'.drawn = r.drawn

/-- Without a limit, no operation asks for the number of steps. -/
theorem Run.SameButSteps.congruence {policy : Policy} (hLimit : policy.limit = none) :
    Run.Congruence policy Run.SameButSteps where
  exit h := h.exit
  drawn h := h.drawn
  steps _ hSome := absurd hSome (by simp [hLimit])
  ending _ h := ⟨rfl, h.drawn⟩
  drawing h := ⟨h.exit, congrArg (· + 1) h.drawn⟩
  counting h := ⟨h.exit, h.drawn⟩

/-- Without a limit, the steps taken before make no difference to a run. -/
theorem Program.run_of_steps {policy : Policy} (hLimit : policy.limit = none) (p : Program)
    {t : Table} (hSound : t.Sound) {run run' : Run} (hRun : run.SameButSteps run') :
    let r := p.run policy ⟨t, run⟩
    let r' := p.run policy ⟨t, run'⟩
    r'.1 = r.1 ∧ r'.2.table = r.2.table ∧ r.2.run.SameButSteps r'.2.run := by
  intro r r'
  have hDepth (run : Run) : (p.run policy ⟨t, run⟩).2.table.callDepth = t.callDepth :=
    (p.run_keeps (m := ⟨t, run⟩) (Table.stable_callDepth t.callDepth) policy ⟨hSound, rfl⟩).2
  have hAlike : t.Alike .everything (fun _ => none) (fun _ => none) t := .everything hSound
  obtain ⟨hResult, hFinal⟩ := p.coupled_of_within (Run.SameButSteps.congruence hLimit)
    (Statement.withinAll_everything p) none ⟨t, run⟩ ⟨t, run'⟩ ⟨hAlike, hRun⟩
  exact ⟨hResult.eq.symm, hFinal.table.eq ((hDepth run').trans (hDepth run).symm), hFinal.run⟩

/-- Two texts that can each be read as a program, of which the first does not end
inside a comment, can be read as one program with a semicolon between them. The
statements are those of the first and then those of the second. If the first runs
to its end without an `end` statement, and there is no limit on steps, then
running both as one comes to the same value or the same failure as running them
one after the other, each in a run of its own, and leaves the same table. -/
theorem session_in_pieces (policy : Policy) (p q : String) (ps qs : Program)
    (hp : Program.ofText p = .ok ps) (hq : Program.ofText q = .ok qs)
    (hComment : Lexicon.endsInComment p = false) :
    Program.ofText (joined p q) = .ok (ps ++ qs) ∧
    ∀ (t : Table) (drawn : Nat) (value : Option Float), t.Reachable → policy.limit = none →
      let first := execute policy p ⟨t, { drawn := drawn }⟩
      let second := execute policy q ⟨first.2.table, { drawn := first.2.run.drawn }⟩
      let whole := execute policy (joined p q) ⟨t, { drawn := drawn }⟩
      first.1 = .ok value → first.2.run.exit = none →
        whole.1 = second.1 ∧ whole.2.table = second.2.table ∧
          whole.2.run.exit = second.2.run.exit ∧ whole.2.run.drawn = second.2.run.drawn := by
  have hJoined := Program.ofText_joined hp hq hComment
  refine ⟨hJoined, fun t drawn value hReachable hLimit => ?_⟩
  simp only [execute, hp, hq, hJoined]
  intro hValue hExit
  obtain ⟨-, -, hNonempty, -⟩ := ofTokens_ok hq
  rw [Program.run_append hNonempty hValue hExit]
  have hSound : (ps.run policy ⟨t, { drawn := drawn }⟩).2.table.Sound :=
    ps.run_keeps (m := ⟨t, { drawn := drawn }⟩) Table.stable_sound policy hReachable.sound
  -- The second text finds the table of the first, but a run that has done nothing.
  have hFresh : Run.SameButSteps { drawn := (ps.run policy ⟨t, { drawn := drawn }⟩).2.run.drawn }
      (ps.run policy ⟨t, { drawn := drawn }⟩).2.run := ⟨hExit, rfl⟩
  obtain ⟨hResult, hTable, hRun⟩ := qs.run_of_steps hLimit hSound hFresh
  exact ⟨hResult, hTable, hRun.exit, hRun.drawn⟩

/-- Ends in a comment to the end of its line. -/
def turningText : String := "let x; while (!x) x = !x // once"

/-- Takes one turn, after which the variable is one. -/
def turning : Program :=
  [.letVar "x" none,
   .whileLoop (.unary .not (.name "x"))
     (.expression (.binary .assign (.name "x") (.unary .not (.name "x"))))]

/-- Begins with a conditional that has no alternative. -/
def growingText : String := "if (x) x = x + x; x"

/-- Doubles the variable unless it is zero. -/
def growing : Program :=
  [.ifThen (.name "x")
     (.expression (.binary .assign (.name "x") (.binary .add (.name "x") (.name "x")))),
   .expression (.name "x")]

/-- No limit on steps, and little patience. -/
def impatient : Policy := ⟨none, 10, 10, fun _ => 0.5⟩

/-- The run of the second text has taken no steps, and that of the whole has. -/
theorem session_in_pieces_turning :
    Program.ofText turningText = .ok turning ∧ Program.ofText growingText = .ok growing ∧
    Lexicon.endsInComment turningText = false ∧
    Program.ofText (joined turningText growingText) = .ok (turning ++ growing) ∧
    let first := execute impatient turningText ⟨Table.empty, { drawn := 0 }⟩
    let second := execute impatient growingText ⟨first.2.table, { drawn := first.2.run.drawn }⟩
    let whole := execute impatient (joined turningText growingText) ⟨Table.empty, { drawn := 0 }⟩
    first.1 = .ok (some 1) ∧ first.2.run.exit = none ∧ first.2.run.steps = 1 ∧
    second.1 = .ok (some 2) ∧
    whole.1 = second.1 ∧ whole.2.table = second.2.table ∧
      whole.2.run.exit = second.2.run.exit ∧ whole.2.run.drawn = second.2.run.drawn := by
  have hp : Program.ofText turningText = .ok turning := by with_unfolding_all rfl
  have hq : Program.ofText growingText = .ok growing := by with_unfolding_all rfl
  have hComment : Lexicon.endsInComment turningText = false := by with_unfolding_all rfl
  have hFirst (m : Machine) : execute impatient turningText m = turning.run impatient m := by
    simp only [execute, hp]
  have hSecond (m : Machine) : execute impatient growingText m = growing.run impatient m := by
    simp only [execute, hq]
  have hValue :
      (execute impatient turningText ⟨Table.empty, { drawn := 0 }⟩).1 = .ok (some 1) := by
    rw [hFirst]
    decide +kernel
  have hExit :
      (execute impatient turningText ⟨Table.empty, { drawn := 0 }⟩).2.run.exit = none := by
    rw [hFirst]
    decide +kernel
  obtain ⟨hJoined, hRun⟩ :=
    session_in_pieces impatient turningText growingText turning growing hp hq hComment
  refine ⟨hp, hq, hComment, hJoined, hValue, hExit, ?_, ?_,
    hRun Table.empty 0 (some 1) .empty rfl hValue hExit⟩
  · rw [hFirst]
    decide +kernel
  · rw [hFirst, hSecond]
    decide +kernel

end Reckoner
