import Reckoner.Proofs.Metered

/-! Runs under a step limit end. On a budget, a run comes to the result of the
interpreter after a certain number of steps, and to none on a smaller budget.
The limit bounds the turns of all loops together and the depth bounds the calls;
in between, what is carried out gets smaller. -/
namespace Reckoner

open Attempt

namespace Metered

variable {σ α β : Type}

/-- What the budget has left after the first computation is the budget of the
second. An exhausted budget is no result and no failure. -/
theorem result_bind (x : Metered σ α) (f : α → Metered σ β) (s : σ) (budget : Nat) :
    result (x >>= f) s budget = match result x s budget with
      | none => none
      | some ((.ok a, s'), left) => result (f a) s' left
      | some ((.error e, s'), left) => some ((.error e, s'), left) := by
  change (result x s budget).bind _ = _
  rcases result x s budget with _ | ⟨⟨e | a, s'⟩, left⟩ <;> rfl

/-- From a state, `x` takes so many steps to come to the result of `y`, and comes
to no result if the budget is smaller. -/
def Costs (x : Nat → Metered σ α) (y : Attempt σ α) (s : σ) (steps : Nat) : Prop :=
  ∀ reach budget, budget ≤ reach → result (x reach) s budget =
    if budget < steps then none else some (runOn y s, budget - steps)

namespace Costs

variable {x : Nat → Metered σ α} {y : Attempt σ α} {s : σ} {steps : Nat}

/-- Computations that belong to the interpreter alone cost nothing. -/
theorem own (y : Attempt σ α) (s : σ) : Costs (fun _ => Metered.own y) y s 0 :=
  fun _ _ _ => rfl

/-- Entering a routine takes one step, and without one left there is no result. -/
theorem step {body : Nat → Metered σ α} (hZero : x 0 = exhausted)
    (hSucc : ∀ reach, x (reach + 1) = Metered.step >>= fun _ => body reach)
    (h : Costs body y s steps) : Costs x y s (steps + 1) := by
  intro reach budget hBudget
  cases reach with
  | zero =>
      obtain rfl : budget = 0 := Nat.le_zero.mp hBudget
      rw [hZero, if_pos (Nat.succ_pos steps)]
      rfl
  | succ reach =>
      rw [hSucc, result_bind]
      cases budget with
      | zero =>
          rw [if_pos (Nat.succ_pos steps)]
          rfl
      | succ budget =>
          have hBody := h reach budget (Nat.le_of_succ_le_succ hBudget)
          simp only [Nat.add_lt_add_iff_right, Nat.add_sub_add_right]
          exact hBody

/-- What failed is not continued. -/
theorem bind_error {f : Nat → α → Metered σ β} {g : α → Attempt σ β} (h : Costs x y s steps)
    {e : Failure} {s' : σ} (hRun : runOn y s = (.error e, s')) :
    Costs (fun reach => x reach >>= f reach) (y >>= g) s steps := by
  intro reach budget hBudget
  rw [result_bind, h reach budget hBudget, runOn_bind, hRun]
  split <;> simp_all

/-- The steps of computations in a row add up. This also holds of the least
budget, since the second starts with what the first has left. -/
theorem bind_ok {f : Nat → α → Metered σ β} {g : α → Attempt σ β} (h : Costs x y s steps)
    {a : α} {s' : σ} (hRun : runOn y s = (.ok a, s')) {more : Nat}
    (hRest : Costs (fun reach => f reach a) (g a) s' more) :
    Costs (fun reach => x reach >>= f reach) (y >>= g) s (steps + more) := by
  intro reach budget hBudget
  rw [result_bind, h reach budget hBudget, runOn_bind, hRun]
  by_cases hLasts : budget < steps
  · rw [if_pos hLasts, if_pos (by omega)]
  · rw [if_neg hLasts]
    have hLeft := hRest reach (budget - steps) (by omega)
    simp only [hLeft, Nat.sub_sub]
    congr 1
    exact propext (by omega)

/-- A result may be handed on in another form. -/
theorem lift {τ : Type} {s' : τ} {x' : Nat → Metered τ β} {y' : Attempt τ β}
    (h : Costs x y s steps) (pass : Except Failure α × σ → Except Failure β × τ)
    (hx : ∀ reach budget, result (x' reach) s' budget =
      (result (x reach) s budget).map fun r => (pass r.1, r.2))
    (hy : runOn y' s' = pass (runOn y s)) : Costs x' y' s' steps := by
  intro reach budget hBudget
  rw [hx, h reach budget hBudget, hy]
  split <;> rfl

end Costs

/-- From a state, `y` ends, and `x` shows how many steps this takes. It does not
take turns of loops back, and it is not given up. -/
structure EndsAt (turns : σ → Nat) (x : Nat → Metered σ α) (y : Attempt σ α) (s : σ) : Prop where
  costs : ∃ steps, Costs x y s steps
  advances : turns s ≤ turns (runOn y s).2
  ended : (runOn y s).1 ≠ .error .endless

def Ends (turns : σ → Nat) (x : Nat → Metered σ α) (y : Attempt σ α) : Prop :=
  ∀ s, EndsAt turns x y s

variable {turns : σ → Nat} {x : Nat → Metered σ α} {y : Attempt σ α}

/-- Entering a routine keeps it ending. -/
theorem EndsAt.step {body : Nat → Metered σ α} {s : σ} (h : EndsAt turns body y s)
    (hZero : x 0 = exhausted)
    (hSucc : ∀ reach, x (reach + 1) = Metered.step >>= fun _ => body reach) :
    EndsAt turns x y s := by
  obtain ⟨⟨steps, hCosts⟩, hAdvances, hEnded⟩ := h
  exact ⟨⟨steps + 1, hCosts.step hZero hSucc⟩, hAdvances, hEnded⟩

/-- If the first ends, and the second from wherever the first comes to, then
both in a row do. -/
theorem EndsAt.bind {f : Nat → α → Metered σ β} {g : α → Attempt σ β} {s : σ}
    (hFirst : EndsAt turns x y s)
    (hRest : ∀ a s', runOn y s = (.ok a, s') → EndsAt turns (fun reach => f reach a) (g a) s') :
    EndsAt turns (fun reach => x reach >>= f reach) (y >>= g) s := by
  obtain ⟨⟨steps, hCosts⟩, hAdvances, hEnded⟩ := hFirst
  rcases hRun : runOn y s with ⟨e | a, s'⟩ <;> rw [hRun] at hAdvances hEnded
  · have hBind : runOn (y >>= g) s = (.error e, s') := by rw [runOn_bind, hRun]
    refine ⟨⟨steps, hCosts.bind_error hRun⟩, by rwa [hBind], ?_⟩
    rw [hBind]
    rintro ⟨⟩
    exact hEnded rfl
  · obtain ⟨⟨more, hMore⟩, hAdvances', hEnded'⟩ := hRest a s' hRun
    have hBind : runOn (y >>= g) s = runOn (g a) s' := by rw [runOn_bind, hRun]
    refine ⟨⟨steps + more, hCosts.bind_ok hRun hMore⟩, ?_, by rwa [hBind]⟩
    rw [hBind]
    exact Nat.le_trans hAdvances hAdvances'

namespace Ends

theorem step {body : Nat → Metered σ α} (h : Ends turns body y) (hZero : x 0 = exhausted)
    (hSucc : ∀ reach, x (reach + 1) = Metered.step >>= fun _ => body reach) : Ends turns x y :=
  fun s => (h s).step hZero hSucc

/-- Computations in a row end from every state, if each of them does. -/
theorem bind {f : Nat → α → Metered σ β} {g : α → Attempt σ β} (hFirst : Ends turns x y)
    (hRest : ∀ a, Ends turns (fun reach => f reach a) (g a)) :
    Ends turns (fun reach => x reach >>= f reach) (y >>= g) :=
  fun s => (hFirst s).bind fun a s' _ => hRest a s'

/-- A choice ends if both ways do. -/
theorem ite {c : Prop} [Decidable c] {x' : Nat → Metered σ α} {y' : Attempt σ α}
    (hThen : Ends turns x y) (hElse : Ends turns x' y') :
    Ends turns (fun reach => if c then x reach else x' reach) (if c then y else y') := by
  by_cases h : c
  · simpa only [h, if_true] using hThen
  · simpa only [h, if_false] using hElse

/-- A step that begins no turn. -/
theorem own (h : Inert turns y) : Ends turns (fun _ => Metered.own y) y := by
  intro s
  obtain ⟨hTurns, hOrdinary⟩ := h s
  refine ⟨⟨0, .own y s⟩, Nat.le_of_eq hTurns.symm, fun hEndless => ?_⟩
  rw [hEndless] at hOrdinary
  cases hOrdinary

theorem pure (a : α) : Ends turns (fun _ => Pure.pure a) (Pure.pure a : Attempt σ α) :=
  fun _ => ⟨⟨0, fun _ _ _ => rfl⟩, Nat.le_refl _, fun h => nomatch h⟩

theorem throw {e : Failure} (h : e ≠ .endless) :
    Ends turns (fun _ => MonadExcept.throw e) (MonadExcept.throw e : Attempt σ α) :=
  fun _ => ⟨⟨0, fun _ _ _ => rfl⟩, Nat.le_refl _, fun hEndless => h (Except.error.inj hEndless)⟩

end Ends

variable {policy : Policy}

/-- An evaluation ends on the machine if it ends on every table. -/
theorem ends_reading {f : Nat → Table → Metered Run α} {g : Table → Evaluation α}
    (h : ∀ t, Ends Run.steps (fun reach => f reach t) (g t)) :
    Ends Machine.steps (fun reach => reading (f reach)) (Execution.reading g) := by
  intro m
  obtain ⟨⟨steps, hCosts⟩, hAdvances, hEnded⟩ := h m.table m.run
  refine ⟨⟨steps, hCosts.lift (fun r => (r.1, { m with run := r.2 })) (fun reach budget => ?_) rfl⟩,
    hAdvances, hEnded⟩
  change (result (f reach m.table) m.run budget).bind _ = _
  rcases result (f reach m.table) m.run budget with _ | ⟨⟨r, run⟩, left⟩ <;> rfl

/-- Leaving a scope takes no step and cannot take a turn back. -/
theorem ends_inScope (shadows : List String) {x : Nat → Metered Machine α} {y : Execution α}
    (h : Ends Machine.steps x y) :
    Ends Machine.steps (fun reach => inScope shadows (x reach)) (Execution.inScope shadows y) := by
  intro m
  obtain ⟨⟨steps, hCosts⟩, hAdvances, hEnded⟩ := h m
  refine ⟨⟨steps, hCosts.lift (Execution.leaving m shadows) (fun reach budget => ?_) rfl⟩, ?_, ?_⟩
  · change (result (x reach) m budget).bind _ = _
    rcases result (x reach) m budget with _ | ⟨r, left⟩ <;> rfl
  · rwa [Execution.runOn_inScope, Execution.leaving_steps]
  · rw [Execution.runOn_inScope]
    rcases hRun : runOn y m with ⟨e | a, inner⟩
    · rwa [hRun] at hEnded
    · intro hEndless
      have hUnstopped := Execution.leaving_unstopped m inner shadows a
      rw [hEndless] at hUnstopped
      cases hUnstopped

/-- A body ends for its caller, in the run of the caller. -/
theorem ends_runBody (scope : Table) {x : Nat → Metered Machine Outcome} {y : Execution Outcome}
    (h : Ends Machine.steps x y) :
    Ends Run.steps (fun reach => runBody scope (x reach))
      (Subroutine.activate.runBody scope y) := by
  intro run
  obtain ⟨⟨steps, hCosts⟩, hAdvances, hEnded⟩ := h ⟨scope, run⟩
  refine ⟨⟨steps, hCosts.lift Subroutine.handedBack (fun reach budget => ?_) rfl⟩, ?_, ?_⟩
  · change (result (x reach) ⟨scope, run⟩ budget).bind _ = _
    rcases result (x reach) ⟨scope, run⟩ budget with _ | ⟨r, left⟩ <;> rfl
  · rwa [Subroutine.runBody_eq_handedBack, Subroutine.handedBack_steps]
  · rw [Subroutine.runBody_eq_handedBack]
    rcases hRun : runOn y ⟨scope, run⟩ with ⟨e | o, m⟩
    · rw [hRun] at hEnded
      rintro ⟨⟩
      exact hEnded rfl
    · rintro ⟨⟩

/-- Counting a turn may stop the run, but does not give it up. -/
theorem ends_tick (policy : Policy) :
    Ends Machine.steps (fun _ => own (Execution.tick policy)) (Execution.tick policy) := by
  intro m
  have hCounted : m.steps ≤ (Execution.counted m).steps := Nat.le_succ m.steps
  refine ⟨⟨0, .own _ m⟩, ?_, ?_⟩ <;> rw [Execution.runOn_tick] <;> split
  · split <;> exact hCounted
  · exact hCounted
  · split <;> rintro ⟨⟩
  · rintro ⟨⟩

/-- A turn ends if its test and its body do. -/
theorem ends_turn {test : Nat → Metered Machine Float} {test' : Execution Float}
    {body : Nat → Metered Machine Outcome} {body' : Execution Outcome}
    (hTest : Ends Machine.steps test test') (hBody : Ends Machine.steps body body') :
    Ends Machine.steps (fun reach => turn policy (test reach) (body reach))
      (Execution.turn policy test' body') := by
  refine .bind (.own Execution.inert_halted) fun ended => .ite (.pure none) ?_
  refine .bind hTest fun truth => .ite ?_ (.pure none)
  exact .bind (ends_tick policy) fun _ => .bind hBody fun outcome => .pure (some outcome)

/-- The turns that the interpreter has left for a loop reach beyond the limit, and
every turn that is taken is counted within it, so a loop under a limit is not
given up. The induction is on the turns that are left, after `n` were taken. -/
theorem endsAt_loop {limit : Int} (hLimit : policy.limit = some limit) {depth : Nat} {test : Expr}
    {test' : Execution Float} {body : Statement} {body' : Execution Outcome}
    (hTest : Ends Machine.steps
      (fun reach => reading fun t => evaluate policy reach depth t test) test')
    (hBody : Ends Machine.steps
      (fun reach => inScope body.shadows (execute policy reach depth body)) body')
    (turns : Nat) {n : Nat} (hEnough : limit < (n + turns : Nat)) (hTaken : turns = 0 → n ≤ limit)
    (value : Option Float) {m : Machine} (hSteps : n ≤ m.steps) :
    EndsAt Machine.steps (fun reach => loop policy reach depth test body value)
      (Execution.loop (Execution.turn policy test' body') turns value) m := by
  induction turns generalizing n value m with
  | zero =>
      -- No turns are left and none too many were taken, which the sum of both forbids.
      have hLow := hTaken rfl
      omega
  | succ turns ih =>
      refine .step ?_ (loop.eq_def ..) fun _ => loop.eq_def ..
      refine .bind (ends_turn hTest hBody m) fun taken after hRun => ?_
      cases taken with
      | none => exact Ends.pure _ after
      | some outcome =>
          obtain ⟨truth, tested, _, hTested, _, hWithin, _⟩ := Execution.turn_taken hRun
          have hBefore : m.steps ≤ tested.steps := by
            have hAdvances := (hTest m).advances
            rwa [hTested] at hAdvances
          have hCount : (tested.steps + 1 : Nat) ≤ limit := hWithin limit hLimit
          have hCounted := Execution.turn_counts (fun m => (hTest m).advances)
            (fun m => (hBody m).advances) hRun
          have hNext (value : Option Float) :
              EndsAt Machine.steps (fun reach => loop policy reach depth test body value)
                (Execution.loop (Execution.turn policy test' body') turns value) after := by
            exact ih (n := n + 1) (by omega) (fun _ => by omega) value (by omega)
          obtain ⟨given, flow⟩ := outcome
          cases flow with
          | normal => exact hNext _
          | breaking => exact Ends.pure _ after
          | continuing => exact hNext _
          | returning => exact Ends.pure _ after

/-- Subroutines end whose calls may be nested so deep. -/
def CallsEnd (policy : Policy) (depth : Nat) : Prop :=
  ∀ s args t, Ends Run.steps (fun reach => activate policy reach depth s args t)
    (Subroutine.activate policy depth s args t)

variable {depth : Nat}

/-- Results that are at hand are never a run that was given up. -/
theorem ends_ofExcept {r : Except Failure α} (h : isOrdinary r = true) :
    Ends Run.steps (fun _ => own (Evaluation.ofExcept r)) (Evaluation.ofExcept r) :=
  .own (Evaluation.inert_ofExcept h)

mutual

/-- The induction is on the expression. -/
theorem ends_evaluate (hCalls : CallsEnd policy depth) (t : Table) (e : Expr) :
    Ends Run.steps (fun reach => evaluate policy reach depth t e)
      (e.evaluate policy (Subroutine.activate policy depth) t) := by
  refine .step ?_ (evaluate.eq_def ..) fun _ => evaluate.eq_def ..
  match e with
  | .number value _ => exact .pure value
  | .name x => exact ends_ofExcept (Expr.lookup_ordinary t x)
  | .unary op e =>
      refine .bind (ends_evaluate hCalls t e) fun a => ends_ofExcept ?_
      exact Arithmetic.settle_ordinary (Arithmetic.unary_ordinary op a)
  | .binary op left right =>
      have hRight := ends_evaluate hCalls t right
      have hOperands : Ends Run.steps
          (fun reach => do
            let a ← evaluate policy reach depth t left
            let b ← evaluate policy reach depth t right
            own (Evaluation.ofExcept (Arithmetic.settle (Arithmetic.binary op a b))))
          (do
            let a ← left.evaluate policy (Subroutine.activate policy depth) t
            let b ← right.evaluate policy (Subroutine.activate policy depth) t
            Evaluation.ofExcept (Arithmetic.settle (Arithmetic.binary op a b))) := by
        refine .bind (ends_evaluate hCalls t left) fun a => .bind hRight fun b => ends_ofExcept ?_
        exact Arithmetic.settle_ordinary (Arithmetic.binary_ordinary op a b)
      cases op with
      | assign =>
          refine .bind (ends_ofExcept ?_) fun _ => hRight
          exact Expr.checkTarget_ordinary t .variableNotFound left
      | _ => exact hOperands
  | .call callee args =>
      have hArgs := ends_evaluateAll hCalls t args
      unfold Expr.evaluate
      dsimp only
      cases Builtin.ofName? callee with
      | some builtin =>
          refine .bind hArgs fun values => .own ?_
          exact (Builtin.inert_call policy builtin values).comp Prod.fst
      | none =>
          cases t.functions[callee]? with
          | some function =>
              refine .bind hArgs fun values => ?_
              exact .bind (hCalls function values t) fun result => .pure _
          | none =>
              refine .throw fun hEndless => ?_
              have hOrdinary := Expr.uncallable_ordinary t callee
              rw [hEndless] at hOrdinary
              cases hOrdinary

/-- Arguments in turn. -/
theorem ends_evaluateAll (hCalls : CallsEnd policy depth) (t : Table) (es : List Expr) :
    Ends Run.steps (fun reach => evaluateAll policy reach depth t es)
      (Expr.evaluateAll policy (Subroutine.activate policy depth) t es) := by
  refine .step ?_ (evaluateAll.eq_def ..) fun _ => evaluateAll.eq_def ..
  match es with
  | [] => exact .pure []
  | e :: rest =>
      refine .bind (ends_evaluate hCalls t e) fun value => ?_
      exact .bind (ends_evaluateAll hCalls t rest) fun values => .pure _

end

theorem ends_value (hCalls : CallsEnd policy depth) (e : Expr) :
    Ends Machine.steps (fun reach => reading fun t => evaluate policy reach depth t e)
      (Execution.reading fun t => e.evaluate policy (Subroutine.activate policy depth) t) :=
  ends_reading fun t => ends_evaluate hCalls t e

theorem ends_optional (hCalls : CallsEnd policy depth) (e : Option Expr) :
    Ends Machine.steps (fun reach => optional (evaluate policy reach depth) e)
      (Statement.execute.optional policy (Subroutine.activate policy depth) e) := by
  cases e with
  | none => exact .pure none
  | some e => exact .bind (ends_value hCalls e) fun value => .pure _

/-- Updates of tables are refused only in ordinary ways. -/
theorem ends_updating {f : Table → Except Failure Table} (h : ∀ t, isOrdinary (f t) = true) :
    Ends Machine.steps (fun _ => own (Execution.updating f)) (Execution.updating f) :=
  .own (Execution.inert_updating h)

theorem ends_get :
    Ends Machine.steps (fun _ => own (get : Execution Machine)) (get : Execution Machine) :=
  .own fun _ => ⟨rfl, rfl⟩

/-- An expression by itself, where an assignment also stores. -/
theorem ends_perform (hCalls : CallsEnd policy depth) (e : Expr) :
    Ends Machine.steps (fun reach => perform (evaluate policy reach depth) e)
      (e.perform policy (Subroutine.activate policy depth)) := by
  unfold Expr.perform
  split
  · next x right =>
      refine .bind (.own ?_) fun _ => .bind (ends_value hCalls right) fun value => ?_
      · exact Execution.inert_reading fun t => Evaluation.inert_ofExcept
          (Expr.checkTarget_ordinary t .undeclaredVariable (.name x))
      · exact .bind (ends_updating fun t => t.assign_ordinary x value) fun _ => .pure _
  · next hOther =>
      have hPerform (reach : Nat) : perform (evaluate policy reach depth) e = (do
          let value ← reading fun t => evaluate policy reach depth t e
          return ⟨some value, .normal⟩) := perform.eq_2 _ e hOther
      simp only [hPerform]
      exact .bind (ends_value hCalls e) fun value => .pure _

mutual

/-- The induction is on the statement, for calls that may go a given depth. -/
theorem ends_execute {limit : Int} (hLimit : policy.limit = some limit)
    (hCalls : CallsEnd policy depth) (s : Statement) :
    Ends Machine.steps (fun reach => execute policy reach depth s)
      (s.execute policy (Subroutine.activate policy depth)) := by
  refine .step ?_ (execute.eq_def ..) fun _ => execute.eq_def ..
  match s with
  | .expression e => exact ends_perform hCalls e
  | .block body => exact ends_inScope _ (ends_executeAll hLimit hCalls body none)
  | .ifThen test yes =>
      refine .bind (ends_value hCalls test) fun truth => .ite ?_ (.pure _)
      exact ends_inScope _ (ends_execute hLimit hCalls yes)
  | .ifElse test yes no =>
      refine .bind (ends_value hCalls test) fun truth => .ite ?_ ?_
      · exact ends_inScope _ (ends_execute hLimit hCalls yes)
      · exact ends_inScope _ (ends_execute hLimit hCalls no)
  | .whileLoop test body =>
      intro m
      have hTurns : policy.turns = limit.toNat + 1 := by rw [Policy.turns, hLimit]
      refine endsAt_loop hLimit (ends_value hCalls test)
        (ends_inScope _ (ends_execute hLimit hCalls body)) policy.turns (n := 0) ?_ ?_ none
        (Nat.zero_le _)
      · omega
      · omega
  | .breakLoop => exact .pure _
  | .continueLoop => exact .pure _
  | .returnValue e =>
      refine .bind ends_get fun m => .ite (.throw (by decide)) ?_
      exact .bind (ends_optional hCalls e) fun value => .pure _
  | .endRun e =>
      refine .bind (ends_optional hCalls e) fun value => ?_
      exact .bind (.own fun _ => ⟨rfl, rfl⟩) fun _ => .pure _
  | .letVar name init =>
      refine .bind (ends_optional hCalls init) fun value => ?_
      exact .bind (ends_updating fun t => t.assign_ordinary name _) fun _ => .pure _
  | .constVar name init =>
      refine .bind (ends_value hCalls init) fun value => ?_
      exact .bind (ends_updating fun t => t.declareConstant_ordinary name value) fun _ => .pure _
  | .define kind name params body =>
      exact .bind (ends_updating fun t => t.declare_ordinary kind _) fun _ => .pure _
  | .call name args =>
      refine .bind ends_get fun m => ?_
      cases m.table.procedures[name]? with
      | none => exact .bind (ends_value hCalls (.call name args)) fun value => .pure _
      | some procedure =>
          refine .bind (ends_reading fun t => ends_evaluateAll hCalls t args) fun values => ?_
          refine .bind (ends_reading fun t => hCalls procedure values t) fun result => ?_
          exact .bind (.own (Execution.inert_merging result.1 _)) fun _ => .pure _

/-- Statements in turn, each of which ends. -/
theorem ends_executeAll {limit : Int} (hLimit : policy.limit = some limit)
    (hCalls : CallsEnd policy depth) (body : List Statement) (value : Option Float) :
    Ends Machine.steps (fun reach => executeAll policy reach depth body value)
      (Statement.executeAll policy (Subroutine.activate policy depth) body value) := by
  refine .step ?_ (executeAll.eq_def ..) fun _ => executeAll.eq_def ..
  match body with
  | [] => exact .pure _
  | s :: rest =>
      refine .bind (ends_execute hLimit hCalls s) fun outcome => ?_
      refine .bind (.own Execution.inert_halted) fun ended => .ite (.pure _) ?_
      exact ends_executeAll hLimit hCalls rest _

end

/-- The induction is on how deep calls may be nested. -/
theorem calls_end {limit : Int} (hLimit : policy.limit = some limit) (depth : Nat) :
    CallsEnd policy depth := by
  induction depth with
  | zero =>
      intro s args t
      exact .step (.throw (by decide)) (activate.eq_def ..) fun _ => activate.eq_def ..
  | succ depth ih =>
      intro s args t
      refine .step ?_ (activate.eq_def ..) fun _ => activate.eq_def ..
      refine .ite (.throw (by rintro ⟨⟩)) ?_
      refine .bind (ends_ofExcept (Table.assignAll_ordinary _ _)) fun scope => ?_
      refine .bind (ends_runBody scope (ends_execute hLimit ih _)) fun result => ?_
      obtain ⟨⟨value, flow⟩, scope⟩ := result
      cases flow with
      | normal => exact .pure _
      | breaking => exact .throw (by decide)
      | continuing => exact .throw (by decide)
      | returning => exact .pure _

/-- Induction over the statements of a program. The limit is asked for only by
the loops in them. -/
theorem ends_executeProgram {limit : Int} (hLimit : policy.limit = some limit) (p : Program)
    (value : Option Float) :
    Ends Machine.steps (fun reach => executeProgram policy reach p value)
      (p.execute policy value) := by
  induction p generalizing value with
  | nil => exact .step (.pure value) (executeProgram.eq_def ..) fun _ => executeProgram.eq_def ..
  | cons s rest ih =>
      refine .step ?_ (executeProgram.eq_def ..) fun _ => executeProgram.eq_def ..
      refine .bind (ends_execute hLimit (calls_end hLimit policy.depth) s) fun outcome => ?_
      refine .bind ends_get fun m => ?_
      obtain ⟨given, flow⟩ := outcome
      cases m.run.exit with
      | some value => exact .pure value
      | none =>
          cases flow with
          | normal => exact ih given
          | breaking => exact .throw (by decide)
          | continuing => exact .throw (by decide)
          | returning => exact ih given

end Metered

open Metered

/-- For every program and every expression, on every table and in whatever state
the run is, under every step limit and however deep calls may be nested: the run
ends, with a value or with a failure that is not that of having been given up.
It takes a certain number of steps. On a budget that lasts for these, the
routines that call each other come to the same result; otherwise they come to
none. -/
theorem bounded_runs_end (limit : Int) (depth patience : Nat) (draws : Nat → Float) :
    let policy : Policy := ⟨some limit, depth, patience, draws⟩
    (∀ (p : Program) (m : Machine), (p.run policy m).1 ≠ .error .endless ∧
      ∃ steps, ∀ budget, result (executeProgram policy budget p none) m budget =
        if budget < steps then none else some (p.run policy m, budget - steps)) ∧
    (∀ (e : Expr) (t : Table) (run : Run),
      (runOn (e.evaluate policy policy.activation t) run).1 ≠ .error .endless ∧
      ∃ steps, ∀ budget, result (Metered.evaluate policy budget depth t e) run budget =
        if budget < steps then none
        else some (runOn (e.evaluate policy policy.activation t) run, budget - steps)) := by
  intro policy
  have hLimit : policy.limit = some limit := rfl
  constructor
  · intro p m
    obtain ⟨⟨steps, hCosts⟩, -, hEnded⟩ := ends_executeProgram hLimit p none m
    exact ⟨hEnded, steps, fun budget => hCosts budget budget (Nat.le_refl _)⟩
  · intro e t run
    obtain ⟨⟨steps, hCosts⟩, -, hEnded⟩ := ends_evaluate (calls_end hLimit depth) t e run
    exact ⟨hEnded, steps, fun budget => hCosts budget budget (Nat.le_refl _)⟩

end Reckoner
