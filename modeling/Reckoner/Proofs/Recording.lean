import Reckoner.Proofs.Following
import Reckoner.Proofs.Trace

/-! Carrying out programs with a record. Beside the executor stands one that also
writes down what happens: a note before each statement, before each test and each body
of a loop, and at each `end`. Without the notes it is the executor, and the notes are
the events of the run. So an event stands for a statement that was carried out, and the
turns that a run counts are the bodies of loops that start in it. -/
namespace Reckoner

open Attempt

/-- A computation that writes down events besides what it does. -/
abbrev Noted (σ α : Type) := Attempt (σ × List Event) α

namespace Noted

variable {σ α : Type}

/-- Writes down an event. -/
def note (e : Event) : Noted σ Unit := modify fun s => (s.1, s.2 ++ [e])

/-- A computation of which nothing is written down. -/
def quietly (x : Attempt σ α) : Noted σ α := ExceptT.mk fun s =>
  let (result, state) := runOn x s.1
  (result, state, s.2)

/-- A computation as part of the value of an expression. -/
def inExpression (x : Noted σ α) : Noted σ α := ExceptT.mk fun s =>
  let (result, state, notes) := runOn x (s.1, [])
  (result, state, s.2 ++ notes.map Event.inExpression)

/-- A computation that reads the table. -/
def reading (f : Table → Noted Run α) : Noted Machine α := ExceptT.mk fun s =>
  let (result, run, notes) := runOn (f s.1.table) (s.1.run, s.2)
  (result, { s.1 with run := run }, notes)

/-- A body in a scope of its own. -/
def inScope (shadows : List String) (body : Noted Machine α) : Noted Machine α :=
  ExceptT.mk fun s =>
    let (result, inner, notes) := runOn body s
    let (result, m) := Execution.leaving s.1 shadows (result, inner)
    (result, m, notes)

/-- The body of a subroutine on a table of its own. -/
def runBody (scope : Table) (body : Noted Machine Outcome) : Noted Run (Outcome × Table) :=
  ExceptT.mk fun s =>
    let (result, m, notes) := runOn body (⟨scope, s.1⟩, s.2)
    let (result, run) := Subroutine.handedBack (result, m)
    (result, run, notes)

def turn (policy : Policy) (test : Noted Machine Float) (body : Noted Machine Outcome) :
    Noted Machine (Option Outcome) := do
  if ← quietly Execution.halted then return none
  note .turns
  let truth ← test
  if Arithmetic.isTrue truth then
    quietly (Execution.tick policy)
    note .begins
    let outcome ← body
    return some outcome
  else return none

def loop (turn : Noted Machine (Option Outcome)) : Nat → Option Float → Noted Machine Outcome
  | 0, _ => throw .endless
  | turns + 1, value => do
    match ← turn with
    | none => return ⟨value, .normal⟩
    | some outcome =>
      let value := outcome.value <|> value
      match outcome.flow with
      | .breaking => return ⟨value, .normal⟩
      | .returning => return ⟨outcome.value, .returning⟩
      | .normal | .continuing => loop turn turns value

end Noted

open Noted

/-- How a subroutine is carried out with a record. -/
abbrev Activation.Noting := Subroutine → List Float → Table → Noted Run (Table × Option Float)

namespace Expr

mutual

/-- Evaluates an expression with a record. -/
def noting (policy : Policy) (activate : Activation.Noting) (table : Table) :
    Expr → Noted Run Float
  | number value _ => pure value
  | name x => quietly (Evaluation.ofExcept (lookup table x))
  | unary op e => do
    let a ← noting policy activate table e
    quietly (Evaluation.ofExcept (Arithmetic.settle (Arithmetic.unary op a)))
  | binary .assign target e => do
    quietly (Evaluation.ofExcept (checkTarget table .variableNotFound target))
    noting policy activate table e
  | binary op left right => do
    let a ← noting policy activate table left
    let b ← noting policy activate table right
    quietly (Evaluation.ofExcept (Arithmetic.settle (Arithmetic.binary op a b)))
  | call callee args =>
    match Builtin.ofName? callee with
    | some builtin => do
      let values ← notingAll policy activate table args
      quietly (builtin.call policy values)
    | none =>
      match table.functions[callee]? with
      | some function => do
        let values ← notingAll policy activate table args
        let (_, value) ← inExpression (activate function values table)
        return value.getD 0.0
      | none => throw (uncallable table callee)

def notingAll (policy : Policy) (activate : Activation.Noting) (table : Table) :
    List Expr → Noted Run (List Float)
  | [] => pure []
  | e :: rest => do
    let value ← noting policy activate table e
    let values ← notingAll policy activate table rest
    return value :: values

end

/-- Carries out an expression that stands by itself, with a record. -/
def performNoting (policy : Policy) (activate : Activation.Noting) : Expr → Noted Machine Outcome
  | .binary .assign (.name x) e => do
    quietly (Execution.reading fun t => Evaluation.ofExcept
      (checkTarget t .undeclaredVariable (.name x)))
    let value ← reading fun t => e.noting policy activate t
    quietly (Execution.updating fun t => t.assign x value)
    return ⟨some value, .normal⟩
  | e => do
    let value ← reading fun t => e.noting policy activate t
    return ⟨some value, .normal⟩

end Expr

namespace Statement

/-- The value of an expression that may be left out, with a record. -/
def optionalNoting (policy : Policy) (activate : Activation.Noting) :
    Option Expr → Noted Machine (Option Float)
  | none => return none
  | some e => do
    let value ← reading fun t => e.noting policy activate t
    return some value

mutual

/-- Carries out a statement with a record. Whoever carries it out has noted its start. -/
def noting (policy : Policy) (activate : Activation.Noting) : Statement → Noted Machine Outcome
  | expression e => e.performNoting policy activate
  | block body =>
    inScope (shadows (block body)) (notingAll policy activate .enters body none)
  | ifThen test yes => do
    let truth ← reading fun t => test.noting policy activate t
    if Arithmetic.isTrue truth then
      note .enters
      inScope yes.shadows (noting policy activate yes)
    else return ⟨some 0.0, .normal⟩
  | ifElse test yes no => do
    let truth ← reading fun t => test.noting policy activate t
    if Arithmetic.isTrue truth then
      note .enters
      inScope yes.shadows (noting policy activate yes)
    else
      note .enters
      inScope no.shadows (noting policy activate no)
  | whileLoop test body =>
    let turn := Noted.turn policy (reading fun t => test.noting policy activate t)
      (inScope body.shadows (noting policy activate body))
    Noted.loop turn policy.turns none
  | breakLoop => return ⟨none, .breaking⟩
  | continueLoop => return ⟨none, .continuing⟩
  | returnValue e => do
    if (← quietly get).table.callDepth = 0 then
      throw (.flow (.invalidReturn "'return' may only appear within a function or procedure"))
    else
      let value ← optionalNoting policy activate e
      return ⟨value, .returning⟩
  | endRun e => do
    let value ← optionalNoting policy activate e
    note (.ends false value)
    quietly (modify fun m => { m with run := { m.run with exit := some value } })
    return ⟨value, .returning⟩
  | letVar name init => do
    let value := (← optionalNoting policy activate init).getD 0.0
    quietly (Execution.updating fun t => t.assign name value)
    return ⟨some value, .normal⟩
  | constVar name init => do
    let value ← reading fun t => init.noting policy activate t
    quietly (Execution.updating fun t => t.declareConstant name value)
    return ⟨some value, .normal⟩
  | define kind name params body => do
    quietly (Execution.updating fun t => t.declare kind ⟨name, params, body⟩)
    return ⟨none, .normal⟩
  | call name args => do
    match (← quietly get).table.procedures[name]? with
    | none =>
      let value ← reading fun t => (Expr.call name args).noting policy activate t
      return ⟨some value, .normal⟩
    | some procedure =>
      let values ← reading fun t => Expr.notingAll policy activate t args
      let (scope, _) ← reading fun t => activate procedure values t
      quietly (Execution.merging scope (procedure.params ++ shadows (block procedure.body)))
      return ⟨none, .normal⟩

/-- Carries out statements in turn, with a record in which the first of them starts with
the event `start`. -/
def notingAll (policy : Policy) (activate : Activation.Noting) (start : Event) :
    List Statement → Option Float → Noted Machine Outcome
  | [], value => return ⟨value, .normal⟩
  | s :: rest, value => do
    note start
    let outcome ← noting policy activate s
    let value :=
      if outcome.value.isSome ∨ outcome.flow = .returning then outcome.value else value
    if outcome.flow ≠ .normal ∨ (← quietly Execution.halted) then return ⟨value, outcome.flow⟩
    else notingAll policy activate .goesOn rest value

end

end Statement

/-- Carries out a subroutine with a record. -/
def Subroutine.noting (policy : Policy) : Nat → Activation.Noting
  | 0, _, _, _ => throw .tooDeep
  | depth + 1, s, args, table => do
    if args.length ≠ s.params.length then
      throw (.flow (.wrongArgumentCount s.name s.params.length args.length))
    else
      let scope ← quietly (Evaluation.ofExcept (table.enterCall.assignAll (s.params.zip args)))
      note .enters
      let (outcome, scope) ← runBody scope
        ((Statement.block s.body).noting policy (noting policy depth))
      match outcome.flow with
      | .breaking => throw (.flow .breakOutsideLoop)
      | .continuing => throw (.flow .continueOutsideLoop)
      | .normal | .returning => return (scope, outcome.value)

/-- Carries out the statements of a program with a record in which the first of them
starts with the event `start`. -/
def Program.noting (policy : Policy) (start : Event) :
    Program → Option Float → Noted Machine (Option Float)
  | [], value => return value
  | s :: rest, _ => do
    note start
    let outcome ← s.noting policy (Subroutine.noting policy policy.depth)
    match (← quietly get).run.exit, outcome.flow with
    | some value, _ => return value
    | none, .breaking => throw (.flow .breakOutsideLoop)
    | none, .continuing => throw (.flow .continueOutsideLoop)
    | none, _ => noting policy .goesOn rest outcome.value

/-- How many bodies of loops start. -/
def Event.begun (events : List Event) : Nat := events.countP fun e => decide (e = begins)

namespace Event

theorem begun_append (first second : List Event) :
    begun (first ++ second) = begun first + begun second := List.countP_append

theorem begun_cons {e : Event} (h : e ≠ .begins) (events : List Event) :
    begun (e :: events) = begun events := by
  simp [begun, h]

theorem begun_begins (events : List Event) : begun (begins :: events) = begun events + 1 := by
  simp [begun]

/-- A body that starts inside an expression counts like any other. -/
theorem begun_inExpression (events : List Event) :
    begun (events.map inExpression) = begun events := by
  rw [begun, begun, List.countP_map]
  congr 1
  funext e
  cases e <;> rfl

end Event

namespace Noted

variable {σ α β : Type} {q : Policy} {steps : σ → Nat}

/-- From one state, `x'` does what `x` does and adds the events to its notes. Without a
limit, each start of the body of a loop is one step. -/
structure RecordsAt (q : Policy) (steps : σ → Nat) (x' : Noted σ α) (x : Attempt σ α)
    (events : List Event) (s : σ) : Prop where
  run_eq : ∀ notes, runOn x' (s, notes) = ((runOn x s).1, (runOn x s).2, notes ++ events)
  steps_eq : q.limit = none → steps (runOn x s).2 = steps s + Event.begun events

/-- The same from every state. -/
def Records (q : Policy) (steps : σ → Nat) (x' : Noted σ α) (x : Attempt σ α) (log : Log σ) :
    Prop := ∀ s, RecordsAt q steps x' x (log s) s

/-- A computation without a record keeps the notes as they were. -/
theorem runOn_quietly (x : Attempt σ α) (s : σ) (notes : List Event) :
    runOn (quietly x) (s, notes) = ((runOn x s).1, (runOn x s).2, notes) := rfl

namespace RecordsAt

/-- What counts no step and has no events may go without a record. -/
theorem quietly {x : Attempt σ α} {s : σ} (h : steps (runOn x s).2 = steps s) :
    RecordsAt q steps (quietly x) x [] s where
  run_eq notes := by rw [runOn_quietly, List.append_nil]
  steps_eq _ := h

theorem pure (a : α) (s : σ) :
    RecordsAt q steps (Pure.pure a : Noted σ α) (Pure.pure a) [] s where
  run_eq notes := by rw [runOn_pure, runOn_pure, List.append_nil]
  steps_eq _ := rfl

theorem throw (e : Failure) (s : σ) :
    RecordsAt q steps (MonadExcept.throw e : Noted σ α) (MonadExcept.throw e) [] s where
  run_eq notes := by rw [runOn_throw, runOn_throw, List.append_nil]
  steps_eq _ := rfl

/-- Both computations add their events in a row, and their steps add up. If the
first one fails, its events are all. -/
theorem bind {x' : Noted σ α} {x : Attempt σ α} {f' : α → Noted σ β} {f : α → Attempt σ β}
    {log : Log σ} {next : α → Log σ} {s : σ} (hFirst : RecordsAt q steps x' x (log s) s)
    (hRest : ∀ a s', runOn x s = (.ok a, s') →
      RecordsAt q steps (f' a) (f a) (next a s') s') :
    RecordsAt q steps (x' >>= f') (x >>= f) (log.andThen x next s) s := by
  obtain ⟨hRun, hSteps⟩ := hFirst
  rw [Log.andThen]
  rcases hx : runOn x s with ⟨e | a, s'⟩ <;> rw [hx] at hRun hSteps
  · refine ⟨fun notes => ?_, fun hLimit => ?_⟩
    · rw [runOn_bind, runOn_bind, hRun, hx, List.append_nil]
    · rw [runOn_bind, hx, List.append_nil]
      exact hSteps hLimit
  · obtain ⟨hRun', hSteps'⟩ := hRest a s' hx
    refine ⟨fun notes => ?_, fun hLimit => ?_⟩
    · rw [runOn_bind, runOn_bind, hRun, hx, ← List.append_assoc]
      exact hRun' (notes ++ log s)
    · rw [runOn_bind, hx, Event.begun_append, ← Nat.add_assoc, ← hSteps hLimit]
      exact hSteps' hLimit

/-- Another event first, that is not the start of a turn. -/
theorem note {x' : Noted σ α} {x : Attempt σ α} {events : List Event} {s : σ} {e : Event}
    (he : e ≠ .begins) (h : RecordsAt q steps x' x events s) :
    RecordsAt q steps (Noted.note e >>= fun _ => x') x (e :: events) s where
  run_eq notes := by
    have hNote : runOn (Noted.note e >>= fun _ => x') (s, notes) = runOn x' (s, notes ++ [e]) := rfl
    rw [hNote, h.run_eq, List.append_assoc]
    rfl
  steps_eq hLimit := by
    rw [Event.begun_cons he]
    exact h.steps_eq hLimit

end RecordsAt

namespace Records

theorem quietly {x : Attempt σ α} (h : ∀ s, steps (runOn x s).2 = steps s) :
    Records q steps (quietly x) x Log.silent := fun s => .quietly (h s)

theorem pure (a : α) : Records q steps (Pure.pure a : Noted σ α) (Pure.pure a) Log.silent :=
  fun s => .pure a s

theorem throw (e : Failure) :
    Records q steps (MonadExcept.throw e : Noted σ α) (MonadExcept.throw e) Log.silent :=
  fun s => .throw e s

/-- The record of computations in a row is that of the first and then that of
the second. -/
theorem bind {x' : Noted σ α} {x : Attempt σ α} {f' : α → Noted σ β} {f : α → Attempt σ β}
    {log : Log σ} {next : α → Log σ} (hFirst : Records q steps x' x log)
    (hRest : ∀ a, Records q steps (f' a) (f a) (next a)) :
    Records q steps (x' >>= f') (x >>= f) (log.andThen x next) :=
  fun s => (hFirst s).bind fun a s' _ => hRest a s'

/-- What follows may have no events of its own. -/
theorem bind_silent {x' : Noted σ α} {x : Attempt σ α} {f' : α → Noted σ β}
    {f : α → Attempt σ β} {log : Log σ} (hFirst : Records q steps x' x log)
    (hRest : ∀ a, Records q steps (f' a) (f a) Log.silent) :
    Records q steps (x' >>= f') (x >>= f) log := by
  have hBind := bind hFirst hRest
  rwa [Log.andThen_silent] at hBind

/-- A note before a computation is the first of its events. -/
theorem note {x' : Noted σ α} {x : Attempt σ α} {log : Log σ} {e : Event} (he : e ≠ .begins)
    (h : Records q steps x' x log) :
    Records q steps (Noted.note e >>= fun _ => x') x (Log.after e log) :=
  fun s => (h s).note he

/-- As part of an expression, a computation has the same events but for its `end`s. -/
theorem inExpression {x' : Noted σ α} {x : Attempt σ α} {log : Log σ}
    (h : Records q steps x' x log) :
    Records q steps (inExpression x') x fun s => (log s).map Event.inExpression := by
  intro s
  refine ⟨fun notes => ?_, fun hLimit => ?_⟩
  · have hRun : runOn (Noted.inExpression x') (s, notes) = ((runOn x' (s, [])).1,
        (runOn x' (s, [])).2.1, notes ++ (runOn x' (s, [])).2.2.map Event.inExpression) := rfl
    rw [hRun, (h s).run_eq, List.nil_append]
  · rw [Event.begun_inExpression]
    exact (h s).steps_eq hLimit

end Records

end Noted

/-- Subroutines are carried out with a record of their events. -/
def Activation.Records (q : Policy) (activate' : Activation.Noting) (activate : Activation)
    (calls : Activation.Log) : Prop :=
  ∀ s args t, Noted.Records q Run.steps (activate' s args t) (activate s args t) (calls s args t)

variable {policy : Policy} {activate' : Activation.Noting} {activate : Activation}
  {calls : Activation.Log}

namespace Expr

/-- A result that is at hand takes no step. -/
theorem records_ofExcept {α : Type} (r : Except Failure α) :
    Records policy Run.steps (quietly (Evaluation.ofExcept r)) (Evaluation.ofExcept r)
      Log.silent := by
  refine .quietly fun run => ?_
  cases r <;> rfl

mutual

/-- The induction is on the expression. Both evaluators take the operands in the
same order, and only calls of subroutines add events. -/
theorem records_evaluate (hCalls : Activation.Records policy activate' activate calls) (t : Table)
    (e : Expr) : Records policy Run.steps (e.noting policy activate' t)
      (e.evaluate policy activate t) (e.events policy activate calls t) := by
  match e with
  | number value _ => exact .pure value
  | name x => exact records_ofExcept (lookup t x)
  | unary op e => exact .bind_silent (records_evaluate hCalls t e) fun a => records_ofExcept _
  | binary op left right =>
      have hOperands : Records policy Run.steps
          (do
            let a ← left.noting policy activate' t
            let b ← right.noting policy activate' t
            quietly (Evaluation.ofExcept (Arithmetic.settle (Arithmetic.binary op a b))))
          (do
            let a ← left.evaluate policy activate t
            let b ← right.evaluate policy activate t
            Evaluation.ofExcept (Arithmetic.settle (Arithmetic.binary op a b)))
          ((left.events policy activate calls t).andThen (left.evaluate policy activate t) fun _ =>
            right.events policy activate calls t) := by
        refine .bind (records_evaluate hCalls t left) fun a => ?_
        exact .bind_silent (records_evaluate hCalls t right) fun b => records_ofExcept _
      cases op with
      | assign => exact .bind (records_ofExcept _) fun _ => records_evaluate hCalls t right
      | _ => exact hOperands
  | call callee args =>
      have hArgs := records_evaluateAll hCalls t args
      unfold noting evaluate events
      cases Builtin.ofName? callee with
      | some builtin =>
          refine .bind_silent hArgs fun values => .quietly fun run => ?_
          exact congrArg Prod.fst (Builtin.inert_call policy builtin values run).1
      | none =>
          cases t.functions[callee]? with
          | some function =>
              refine .bind hArgs fun values => ?_
              exact .bind_silent (hCalls function values t).inExpression fun _ => .pure _
          | none => exact .throw _

/-- Arguments in turn. -/
theorem records_evaluateAll (hCalls : Activation.Records policy activate' activate calls)
    (t : Table) (es : List Expr) : Records policy Run.steps (notingAll policy activate' t es)
      (evaluateAll policy activate t es) (eventsAll policy activate calls t es) := by
  match es with
  | [] => exact .pure []
  | e :: rest =>
      refine .bind (records_evaluate hCalls t e) fun value => ?_
      exact .bind_silent (records_evaluateAll hCalls t rest) fun values => .pure _

end

end Expr

namespace Noted

variable {α : Type}

/-- An evaluation with its record, on the table of the machine. -/
theorem records_reading {f' : Table → Noted Run α} {f : Table → Evaluation α}
    {log : Table → Log Run} (h : ∀ t, Records policy Run.steps (f' t) (f t) (log t)) :
    Records policy Machine.steps (reading f') (Execution.reading f) (Log.reading log) := by
  intro m
  refine ⟨fun notes => ?_, (h m.table m.run).steps_eq⟩
  have hRun : runOn (reading f') (m, notes) = ((runOn (f' m.table) (m.run, notes)).1,
      { m with run := (runOn (f' m.table) (m.run, notes)).2.1 },
      (runOn (f' m.table) (m.run, notes)).2.2) := rfl
  rw [hRun, (h m.table m.run).run_eq]
  rfl

/-- Tables count no steps. -/
theorem records_updating (f : Table → Except Failure Table) :
    Records policy Machine.steps (quietly (Execution.updating f)) (Execution.updating f)
      Log.silent := by
  refine .quietly fun m => ?_
  rw [Execution.runOn_updating]
  cases f m.table <;> rfl

theorem records_merging (scope : Table) (shadows : List String) :
    Records policy Machine.steps (quietly (Execution.merging scope shadows))
      (Execution.merging scope shadows) Log.silent := .quietly fun _ => rfl

/-- A scope is left alike in both ways, after the same notes. -/
theorem records_inScope {x' : Noted Machine α} {x : Execution α} {log : Log Machine}
    (shadows : List String) (h : Records policy Machine.steps x' x log) :
    Records policy Machine.steps (inScope shadows x') (Execution.inScope shadows x) log := by
  intro m
  refine ⟨fun notes => ?_, fun hLimit => ?_⟩
  · have hRun : runOn (inScope shadows x') (m, notes) =
        ((Execution.leaving m shadows
            ((runOn x' (m, notes)).1, (runOn x' (m, notes)).2.1)).1,
          (Execution.leaving m shadows
            ((runOn x' (m, notes)).1, (runOn x' (m, notes)).2.1)).2,
          (runOn x' (m, notes)).2.2) := rfl
    rw [hRun, (h m).run_eq, Execution.runOn_inScope]
  · rw [Execution.runOn_inScope, Execution.leaving_steps]
    exact (h m).steps_eq hLimit

/-- What happens may depend on the machine as it is. -/
theorem recordsAt_get {f' : Machine → Noted Machine α} {f : Machine → Execution α}
    {events : List Event} {m : Machine}
    (h : RecordsAt policy Machine.steps (f' m) (f m) events m) :
    RecordsAt policy Machine.steps (quietly get >>= f') (get >>= f) events m :=
  ⟨h.run_eq, h.steps_eq⟩

/-- Asking whether the run has ended is not noted. -/
theorem recordsAt_halted {f' : Bool → Noted Machine α} {f : Bool → Execution α}
    {events : List Event} {m : Machine}
    (h : RecordsAt policy Machine.steps (f' m.run.halted) (f m.run.halted) events m) :
    RecordsAt policy Machine.steps (quietly Execution.halted >>= f') (Execution.halted >>= f)
      events m := ⟨h.run_eq, h.steps_eq⟩

/-- The turn is counted and then its body starts. Without a limit the count is always
accepted, so that both happen or none. -/
theorem recordsAt_begin {x' : Noted Machine α} {x : Execution α} {log : Log Machine}
    (h : Records policy Machine.steps x' x log) (m : Machine) :
    RecordsAt policy Machine.steps
      (quietly (Execution.tick policy) >>= fun _ => note .begins >>= fun _ => x')
      (Execution.tick policy >>= fun _ => x)
      (Log.silent.andThen (Execution.tick policy) (fun _ => Log.after .begins log) m) m := by
  rw [Log.andThen]
  refine ⟨fun notes => ?_, fun hLimit => ?_⟩
  · rw [runOn_bind, runOn_bind, runOn_quietly]
    rcases runOn (Execution.tick policy) m with ⟨e | _, m'⟩
    · simp [Log.silent]
    · have hNote : runOn (note .begins >>= fun _ => x') (m', notes) =
          runOn x' (m', notes ++ [.begins]) := rfl
      dsimp only
      rw [hNote, (h m').run_eq]
      simp [Log.silent, Log.after]
  · have hTick : runOn (Execution.tick policy) m = (.ok (), Execution.counted m) := by
      rw [Execution.runOn_tick, hLimit]
    have hSteps : (Execution.counted m).steps = m.steps + 1 := rfl
    rw [runOn_bind, hTick]
    dsimp only [Log.silent, Log.after]
    rw [(h _).steps_eq hLimit, hSteps, List.nil_append, Event.begun_begins]
    omega

/-- A turn of an ended run has no events. One whose test fails has its start and
the events of the test, and only one that is counted has the start of its body. -/
theorem records_turn {test' : Noted Machine Float} {test : Execution Float}
    {body' : Noted Machine Outcome} {body : Execution Outcome} {testLog bodyLog : Log Machine}
    (hTest : Records policy Machine.steps test' test testLog)
    (hBody : Records policy Machine.steps body' body bodyLog) :
    Records policy Machine.steps (turn policy test' body') (Execution.turn policy test body)
      (Log.turn policy test testLog bodyLog) := by
  intro m
  refine recordsAt_halted ?_
  unfold Log.turn
  by_cases hHalted : m.run.halted = true
  · rw [if_pos hHalted, if_pos hHalted, if_pos hHalted]
    exact .pure _ m
  · rw [if_neg hHalted, if_neg hHalted, if_neg hHalted]
    refine .note (by decide) ((hTest m).bind fun truth tested _ => ?_)
    split
    · exact recordsAt_begin (hBody.bind_silent fun _ => .pure _) tested
    · exact .pure _ tested

/-- Induction over the turns that are left, by how each of them goes on. -/
theorem records_loop {turn' : Noted Machine (Option Outcome)} {turn : Execution (Option Outcome)}
    {log : Log Machine} (h : Records policy Machine.steps turn' turn log) (turns : Nat)
    (value : Option Float) :
    Records policy Machine.steps (loop turn' turns value) (Execution.loop turn turns value)
      (Log.loop turn log turns) := by
  induction turns generalizing value with
  | zero => exact .throw .endless
  | succ turns ih =>
      refine .bind h fun taken => ?_
      cases taken with
      | none => exact .pure _
      | some outcome =>
          obtain ⟨given, flow⟩ := outcome
          cases flow with
          | normal => exact ih _
          | breaking => exact .pure _
          | continuing => exact ih _
          | returning => exact .pure _

end Noted

namespace Statement

theorem records_value (hCalls : Activation.Records policy activate' activate calls) (e : Expr) :
    Records policy Machine.steps (reading fun t => e.noting policy activate' t)
      (Execution.reading fun t => e.evaluate policy activate t)
      (Log.reading fun t => e.events policy activate calls t) :=
  records_reading fun t => e.records_evaluate hCalls t

/-- A value that is left out has no record. -/
theorem records_optional (hCalls : Activation.Records policy activate' activate calls)
    (e : Option Expr) :
    Records policy Machine.steps (optionalNoting policy activate' e)
      (execute.optional policy activate e) (optionalEvents policy activate calls e) := by
  cases e with
  | none => exact .pure none
  | some e => exact .bind_silent (records_value hCalls e) fun value => .pure _

/-- An expression by itself, where an assignment also stores. -/
theorem records_perform (hCalls : Activation.Records policy activate' activate calls) (e : Expr) :
    Records policy Machine.steps (e.performNoting policy activate') (e.perform policy activate)
      (e.performance policy activate calls) := by
  by_cases hAssigns : ∃ x right, e = .binary .assign (.name x) right
  · obtain ⟨x, right, rfl⟩ := hAssigns
    refine .bind (.quietly fun m => ?_) fun _ => ?_
    · rw [Execution.runOn_reading]
      cases Expr.checkTarget m.table .undeclaredVariable (.name x) <;> rfl
    · refine .bind_silent (records_value hCalls right) fun value => ?_
      exact .bind_silent (records_updating _) fun _ => .pure _
  · have hShape (x : String) (right : Expr) (h : e = .binary .assign (.name x) right) : False :=
      hAssigns ⟨x, right, h⟩
    rw [Expr.performNoting.eq_2 policy activate' e hShape,
      Expr.perform.eq_2 policy activate e hShape,
      Expr.performance.eq_2 policy activate calls e hShape]
    exact .bind_silent (records_value hCalls e) fun value => .pure _

mutual

/-- The induction is on the statement. Every construct carries out its parts in the same
order in both ways, with a note where a part starts. -/
theorem records_execute (hCalls : Activation.Records policy activate' activate calls)
    (s : Statement) :
    Records policy Machine.steps (s.noting policy activate') (s.execute policy activate)
      (s.events policy activate calls) := by
  match s with
  | expression e => exact records_perform hCalls e
  | block body =>
      exact records_inScope _ (records_executeAll hCalls (by decide) body none)
  | ifThen test yes =>
      refine .bind (records_value hCalls test) fun truth => ?_
      split
      · exact .note (by decide) (records_inScope _ (records_execute hCalls yes))
      · exact .pure _
  | ifElse test yes no =>
      refine .bind (records_value hCalls test) fun truth => ?_
      split
      · exact .note (by decide) (records_inScope _ (records_execute hCalls yes))
      · exact .note (by decide) (records_inScope _ (records_execute hCalls no))
  | whileLoop test body =>
      exact records_loop (records_turn (records_value hCalls test)
        (records_inScope _ (records_execute hCalls body))) policy.turns none
  | breakLoop => exact .pure _
  | continueLoop => exact .pure _
  | returnValue e =>
      intro m
      refine recordsAt_get ?_
      unfold events
      by_cases hOutside : m.table.callDepth = 0
      · rw [if_pos hOutside, if_pos hOutside, if_pos hOutside]
        exact .throw _ m
      · rw [if_neg hOutside, if_neg hOutside, if_neg hOutside]
        exact (records_optional hCalls e).bind_silent (fun _ => .pure _) m
  | endRun e =>
      refine .bind (records_optional hCalls e) fun value => ?_
      exact .note (by simp) (.bind_silent (.quietly fun _ => rfl) fun _ => .pure _)
  | letVar name init =>
      exact .bind_silent (records_optional hCalls init) fun _ =>
        .bind_silent (records_updating _) fun _ => .pure _
  | constVar name init =>
      exact .bind_silent (records_value hCalls init) fun _ =>
        .bind_silent (records_updating _) fun _ => .pure _
  | define kind name params body => exact .bind_silent (records_updating _) fun _ => .pure _
  | call name args =>
      intro m
      refine recordsAt_get ?_
      unfold events
      cases m.table.procedures[name]? with
      | none => exact (records_value hCalls (.call name args)).bind_silent (fun _ => .pure _) m
      | some procedure =>
          have hArgs := records_reading fun t => Expr.records_evaluateAll hCalls t args
          have hBody (values : List Float) := records_reading fun t => hCalls procedure values t
          refine Records.bind hArgs
            (fun values => .bind_silent (hBody values) fun result => ?_) m
          exact .bind_silent (records_merging result.1 _) fun _ => .pure _

/-- Statements one after another, each noted before it is carried out. Those
that are not started are not noted either. -/
theorem records_executeAll (hCalls : Activation.Records policy activate' activate calls)
    {start : Event} (hStart : start ≠ .begins) (body : List Statement) (value : Option Float) :
    Records policy Machine.steps (notingAll policy activate' start body value)
      (executeAll policy activate body value) (eventsAll policy activate calls start body) := by
  match body with
  | [] => exact .pure _
  | s :: rest =>
      refine .note hStart fun m => ?_
      refine (records_execute hCalls s m).bind fun outcome m' _ => recordsAt_halted ?_
      -- The executor, its record and the log all go by this test.
      by_cases hLeaves : outcome.flow ≠ .normal ∨ m'.run.halted = true
      · rw [if_pos hLeaves, if_pos hLeaves, if_pos hLeaves]
        exact .pure _ m'
      · rw [if_neg hLeaves, if_neg hLeaves, if_neg hLeaves]
        exact records_executeAll hCalls (by decide) rest _ m'

end

end Statement

namespace Subroutine

/-- The body of a subroutine continues the record of its caller. -/
theorem records_runBody {body' : Noted Machine Outcome} {body : Execution Outcome}
    {log : Log Machine} (scope : Table) (h : Records policy Machine.steps body' body log) :
    Records policy Run.steps (runBody scope body') (Subroutine.activate.runBody scope body)
      fun run => log ⟨scope, run⟩ := by
  intro run
  refine ⟨fun notes => ?_, fun hLimit => ?_⟩
  · have hRun : runOn (runBody scope body') (run, notes) =
        ((handedBack ((runOn body' (⟨scope, run⟩, notes)).1,
            (runOn body' (⟨scope, run⟩, notes)).2.1)).1,
          (handedBack ((runOn body' (⟨scope, run⟩, notes)).1,
            (runOn body' (⟨scope, run⟩, notes)).2.1)).2,
          (runOn body' (⟨scope, run⟩, notes)).2.2) := rfl
    rw [hRun, (h ⟨scope, run⟩).run_eq, runBody_eq_handedBack]
  · rw [runBody_eq_handedBack, handedBack_steps]
    exact (h ⟨scope, run⟩).steps_eq hLimit

/-- The induction is on how deep calls may be nested. -/
theorem records_activate (policy : Policy) (depth : Nat) :
    Activation.Records policy (noting policy depth) (Subroutine.activate policy depth)
      (events policy depth) := by
  induction depth with
  | zero => exact fun s args t => .throw _
  | succ depth ih =>
      intro s args t run
      unfold noting Subroutine.activate events
      by_cases hCount : args.length ≠ s.params.length
      · rw [if_pos hCount, if_pos hCount, if_pos hCount]
        exact .throw _ run
      · rw [if_neg hCount, if_neg hCount, if_neg hCount]
        cases t.enterCall.assignAll (s.params.zip args) with
        | error e => exact .throw _ run
        | ok scope =>
            have hEnters : Event.enters ≠ .begins := by decide
            refine RecordsAt.note hEnters (Records.bind_silent (records_runBody scope
              (Statement.records_execute ih (.block s.body))) (fun result => ?_) run)
            obtain ⟨⟨value, flow⟩, final⟩ := result
            cases flow with
            | normal => exact .pure _
            | breaking => exact .throw _
            | continuing => exact .throw _
            | returning => exact .pure _

end Subroutine

namespace Program

/-- Induction over the statements of a program. -/
theorem records_execute (policy : Policy) (p : Program) {start : Event} (hStart : start ≠ .begins)
    (value : Option Float) :
    Records policy Machine.steps (p.noting policy start value) (p.execute policy value)
      (p.eventsFrom policy start) := by
  induction p generalizing start value with
  | nil => exact .pure value
  | cons s rest ih =>
      have hCalls := Subroutine.records_activate policy policy.depth
      refine .note hStart fun m => (s.records_execute hCalls m).bind fun outcome m' _ =>
        recordsAt_get ?_
      obtain ⟨given, flow⟩ := outcome
      cases m'.run.exit with
      | some value => exact .pure value m'
      | none =>
          cases flow with
          | normal => exact ih (by decide) given m'
          | breaking => exact .throw _ m'
          | continuing => exact .throw _ m'
          | returning => exact ih (by decide) given m'

/-- A run with the record of what happens in it. -/
def record (policy : Policy) (p : Program) (m : Machine) :
    Except Failure (Option Float) × Machine × List Event :=
  runOn (p.noting policy .enters none) (m, [])

/-- Without the record it is the run, and the record holds the events of the run. -/
theorem record_eq (policy : Policy) (p : Program) (m : Machine) :
    p.record policy m = ((p.run policy m).1, (p.run policy m).2, p.events policy m) :=
  (p.records_execute policy (by decide) none m).run_eq []

/-- Without a limit, a run counts as many turns as bodies of loops start in it. -/
theorem steps_eq_begun {policy : Policy} (hLimit : policy.limit = none) (p : Program)
    (m : Machine) :
    (p.run policy m).2.steps = m.steps + Event.begun (p.events policy m) :=
  (p.records_execute policy (by decide) none m).steps_eq hLimit

end Program

end Reckoner
