import Reckoner.Proofs.Contract

/-! What happens in the course of a run, in order: statements start, loops come to
their tests, and `end` statements are carried out. The events of a computation are
found beside its result. Wherever it depends on a value or on the state how
things go on, the result of the computation itself is asked, so the events are
those of the run and not of a second way to carry out programs. -/
namespace Reckoner

open Attempt

inductive Event where
  /-- A statement starts that is the first of its list, a branch, or the body of
  a subroutine. -/
  | enters
  /-- A statement starts after another one of the same list. -/
  | goesOn
  /-- A loop comes to its test. -/
  | turns
  /-- The test of a loop was passed, and its body starts. -/
  | begins
  /-- An `end` statement is carried out. It is `inside` if this happens in a
  function that an expression calls. -/
  | ends (inside : Bool) (value : Option Float)
  deriving DecidableEq, Repr

namespace Event

/-- Whether a statement starts. -/
def isStart : Event → Bool
  | enters | goesOn | begins => true
  | _ => false

/-- Whether a list of statements or a loop goes on. -/
def isLater : Event → Bool
  | goesOn | turns => true
  | _ => false

/-- The value of an `end` statement that is carried out. -/
def endValue? : Event → Option (Option Float)
  | ends _ value => some value
  | _ => none

/-- Whether an `end` statement is carried out that is not inside an expression. -/
def isPlainEnd : Event → Bool
  | ends inside _ => !inside
  | _ => false

/-- The event as part of the value of an expression. -/
def inExpression : Event → Event
  | ends _ value => ends true value
  | e => e

end Event

/-- The events of a computation from each state. -/
abbrev Log (σ : Type) := σ → List Event

namespace Log

variable {σ α : Type}

def silent : Log σ := fun _ => []

/-- Another event first. -/
def after (e : Event) (log : Log σ) : Log σ := fun s => e :: log s

/-- The events of a computation, and then those of what follows if it succeeds. -/
def andThen (log : Log σ) (x : Attempt σ α) (next : α → Log σ) : Log σ := fun s =>
  log s ++ match runOn x s with
    | (.ok a, s') => next a s'
    | (.error _, _) => []

/-- What follows may have no events of its own. -/
theorem andThen_silent (log : Log σ) (x : Attempt σ α) :
    log.andThen x (fun _ => silent) = log := by
  funext s
  rw [andThen]
  rcases runOn x s with ⟨e | a, s'⟩ <;> simp [silent]

/-- The events of a computation that reads the table. -/
def reading (log : Table → Log Run) : Log Machine := fun m => log m.table m.run

/-- The events of one turn of a loop. -/
def turn (policy : Policy) (test : Execution Float) (testLog bodyLog : Log Machine) :
    Log Machine := fun m =>
  if m.run.halted then []
  else after .turns (testLog.andThen test fun truth =>
    if Arithmetic.isTrue truth then silent.andThen (Execution.tick policy) fun _ =>
      after .begins bodyLog
    else silent) m

/-- The events of a loop that takes no more than a given number of turns. -/
def loop (turn : Execution (Option Outcome)) (turnLog : Log Machine) : Nat → Log Machine
  | 0 => silent
  | turns + 1 => turnLog.andThen turn fun taken =>
    match taken with
    | none => silent
    | some outcome =>
      match outcome.flow with
      | .breaking | .returning => silent
      | .normal | .continuing => loop turn turnLog turns

end Log

/-- The events of carrying out a subroutine on behalf of a caller. -/
abbrev Activation.Log := Subroutine → List Float → Table → Reckoner.Log Run

namespace Expr

mutual

/-- The events of the evaluation of an expression. -/
def events (policy : Policy) (activate : Activation) (calls : Activation.Log) (table : Table) :
    Expr → Log Run
  | number .. | name _ => Log.silent
  | unary _ e => events policy activate calls table e
  | binary .assign target e =>
    Log.silent.andThen (Evaluation.ofExcept (checkTarget table .variableNotFound target)) fun _ =>
      events policy activate calls table e
  | binary _ left right =>
    (events policy activate calls table left).andThen (left.evaluate policy activate table) fun _ =>
      events policy activate calls table right
  | call callee args =>
    match Builtin.ofName? callee, table.functions[callee]? with
    | some _, _ => eventsAll policy activate calls table args
    | none, some function =>
      (eventsAll policy activate calls table args).andThen
        (evaluateAll policy activate table args) fun values run =>
          (calls function values table run).map Event.inExpression
    | none, none => Log.silent

def eventsAll (policy : Policy) (activate : Activation) (calls : Activation.Log) (table : Table) :
    List Expr → Log Run
  | [] => Log.silent
  | e :: rest =>
    (events policy activate calls table e).andThen (e.evaluate policy activate table) fun _ =>
      eventsAll policy activate calls table rest

end

/-- The events of an expression that stands by itself. -/
def performance (policy : Policy) (activate : Activation) (calls : Activation.Log) :
    Expr → Log Machine
  | .binary .assign (.name x) e =>
    Log.silent.andThen
      (Execution.reading fun t => Evaluation.ofExcept
        (checkTarget t .undeclaredVariable (.name x))) fun _ =>
      Log.reading fun t => e.events policy activate calls t
  | e => Log.reading fun t => e.events policy activate calls t

end Expr

namespace Statement

/-- The events of an expression that may be left out. -/
def optionalEvents (policy : Policy) (activate : Activation) (calls : Activation.Log) :
    Option Expr → Log Machine
  | none => Log.silent
  | some e => Log.reading fun t => e.events policy activate calls t

mutual

/-- The events of a statement, from after its start. -/
def events (policy : Policy) (activate : Activation) (calls : Activation.Log) :
    Statement → Log Machine
  | expression e => e.performance policy activate calls
  | block body => eventsAll policy activate calls .enters body
  | ifThen test yes =>
    (Log.reading fun t => test.events policy activate calls t).andThen
      (Execution.reading fun t => test.evaluate policy activate t) fun truth =>
      if Arithmetic.isTrue truth then Log.after .enters (events policy activate calls yes)
      else Log.silent
  | ifElse test yes no =>
    (Log.reading fun t => test.events policy activate calls t).andThen
      (Execution.reading fun t => test.evaluate policy activate t) fun truth =>
      if Arithmetic.isTrue truth then Log.after .enters (events policy activate calls yes)
      else Log.after .enters (events policy activate calls no)
  | whileLoop test body =>
    let value := Execution.reading fun t => test.evaluate policy activate t
    Log.loop
      (Execution.turn policy value
        (Execution.inScope body.shadows (body.execute policy activate)))
      (Log.turn policy value (Log.reading fun t => test.events policy activate calls t)
        (events policy activate calls body))
      policy.turns
  | returnValue e => fun m =>
    if m.table.callDepth = 0 then [] else optionalEvents policy activate calls e m
  | endRun e =>
    (optionalEvents policy activate calls e).andThen (execute.optional policy activate e)
      fun value => Log.after (.ends false value) Log.silent
  | letVar _ init => optionalEvents policy activate calls init
  | constVar _ init => Log.reading fun t => init.events policy activate calls t
  | breakLoop | continueLoop | define .. => Log.silent
  | call name args => fun m =>
    match m.table.procedures[name]? with
    | none => (Expr.call name args).events policy activate calls m.table m.run
    | some procedure =>
      (Log.reading fun t => Expr.eventsAll policy activate calls t args).andThen
        (Execution.reading fun t => Expr.evaluateAll policy activate t args)
        (fun values => Log.reading fun t => calls procedure values t) m

/-- The events of statements in turn. The first of them starts with the event
`start`. -/
def eventsAll (policy : Policy) (activate : Activation) (calls : Activation.Log)
    (start : Event) : List Statement → Log Machine
  | [] => Log.silent
  | s :: rest =>
    Log.after start <|
      (events policy activate calls s).andThen (s.execute policy activate) fun outcome m =>
        if outcome.flow ≠ .normal ∨ m.run.halted then []
        else eventsAll policy activate calls .goesOn rest m

end

end Statement

namespace Subroutine

/-- The events of a subroutine, from the start of its body. -/
def events (policy : Policy) : Nat → Activation.Log
  | 0, _, _, _, _ => []
  | depth + 1, s, args, table, run =>
    if args.length ≠ s.params.length then []
    else match table.enterCall.assignAll (s.params.zip args) with
      | .error _ => []
      | .ok scope =>
        Log.after .enters ((Statement.block s.body).events policy (activate policy depth)
          (events policy depth)) ⟨scope, run⟩

end Subroutine

/-- The events of subroutines under the conditions of a run. -/
def Policy.calls (policy : Policy) : Activation.Log := Subroutine.events policy policy.depth

namespace Program

/-- The events of a program whose first statement starts with the event `start`. -/
def eventsFrom (policy : Policy) (start : Event) : Program → Log Machine
  | [] => Log.silent
  | s :: rest =>
    Log.after start <|
      (s.events policy policy.activation policy.calls).andThen
        (s.execute policy policy.activation) fun outcome m =>
          match m.run.exit, outcome.flow with
          | none, .normal | none, .returning => eventsFrom policy .goesOn rest m
          | _, _ => []

/-- The events of a run of a program. -/
def events (policy : Policy) (p : Program) (m : Machine) : List Event :=
  p.eventsFrom policy .enters m

end Program

end Reckoner
