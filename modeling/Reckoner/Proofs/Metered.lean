import Reckoner.Proofs.Following
import Mathlib.Tactic.Common

/-! The interpreter on a budget of steps. A step is a call of one of the routines
that call each other: for an expression, a statement, a list of these, a turn of
a loop and all that come after it, and a subroutine. Here a loop goes on because
its routine calls itself, with no count of turns, and a call is bounded by how
deep calls may be nested, but nothing is said about the size of what is carried
out. If the budget does not last, there is no result. -/
namespace Reckoner

open Attempt

/-- A computation that takes its steps out of a budget. -/
abbrev Metered (σ : Type) := ExceptT Failure (StateT σ (StateT Nat Option))

namespace Metered

variable {σ α β : Type}

/-- What a computation comes to on a budget, and what is left of the budget. -/
def result (x : Metered σ α) (s : σ) (budget : Nat) : Option ((Except Failure α × σ) × Nat) :=
  x.run s budget

/-- The budget does not last. -/
def exhausted : Metered σ α := ExceptT.mk fun _ _ => none

/-- Takes one step out of the budget. -/
def step : Metered σ Unit := ExceptT.mk fun s budget =>
  match budget with
  | 0 => none
  | left + 1 => some ((.ok (), s), left)

/-- What a routine does by itself, without calling another one. -/
def own (x : Attempt σ α) : Metered σ α := ExceptT.mk fun s budget => some (runOn x s, budget)

def reading (f : Table → Metered Run α) : Metered Machine α := ExceptT.mk fun m => do
  let (result, run) ← (f m.table).run m.run
  return (result, { m with run := run })

def inScope (shadows : List String) (body : Metered Machine α) : Metered Machine α :=
  ExceptT.mk fun m => do
    let result ← body.run m
    return Execution.leaving m shadows result

def runBody (scope : Table) (body : Metered Machine Outcome) : Metered Run (Outcome × Table) :=
  ExceptT.mk fun run => do
    let result ← body.run ⟨scope, run⟩
    return Subroutine.handedBack result

def turn (policy : Policy) (test : Metered Machine Float) (body : Metered Machine Outcome) :
    Metered Machine (Option Outcome) := do
  if ← own Execution.halted then return none
  let truth ← test
  if Arithmetic.isTrue truth then
    own (Execution.tick policy)
    let outcome ← body
    return some outcome
  else return none

/-- The value of an expression that may be left out, given how expressions are
evaluated. -/
def optional (evaluate : Table → Expr → Metered Run Float) :
    Option Expr → Metered Machine (Option Float)
  | none => return none
  | some e => do
    let value ← reading fun t => evaluate t e
    return some value

/-- An expression that stands by itself. -/
def perform (evaluate : Table → Expr → Metered Run Float) : Expr → Metered Machine Outcome
  | .binary .assign (.name x) e => do
    own (Execution.reading fun t => Evaluation.ofExcept
      (Expr.checkTarget t .undeclaredVariable (.name x)))
    let value ← reading fun t => evaluate t e
    own (Execution.updating fun t => t.assign x value)
    return ⟨some value, .normal⟩
  | e => do
    let value ← reading fun t => evaluate t e
    return ⟨some value, .normal⟩

mutual

/-- The routines call each other within a reach, which is never smaller than the
budget, so it is the budget that counts. `depth` is how deep calls may still be
nested. -/
def evaluate (policy : Policy) : Nat → Nat → Table → Expr → Metered Run Float
  | 0, _, _, _ => exhausted
  | reach + 1, depth, table, e => do
    step
    match e with
    | .number value _ => pure value
    | .name x => own (Evaluation.ofExcept (Expr.lookup table x))
    | .unary op e => do
      let a ← evaluate policy reach depth table e
      own (Evaluation.ofExcept (Arithmetic.settle (Arithmetic.unary op a)))
    | .binary .assign target e => do
      own (Evaluation.ofExcept (Expr.checkTarget table .variableNotFound target))
      evaluate policy reach depth table e
    | .binary op left right => do
      let a ← evaluate policy reach depth table left
      let b ← evaluate policy reach depth table right
      own (Evaluation.ofExcept (Arithmetic.settle (Arithmetic.binary op a b)))
    | .call callee args =>
      match Builtin.ofName? callee with
      | some builtin => do
        let values ← evaluateAll policy reach depth table args
        own (builtin.call policy values)
      | none =>
        match table.functions[callee]? with
        | some function => do
          let values ← evaluateAll policy reach depth table args
          let result ← activate policy reach depth function values table
          return result.2.getD 0.0
        | none => throw (Expr.uncallable table callee)

def evaluateAll (policy : Policy) : Nat → Nat → Table → List Expr → Metered Run (List Float)
  | 0, _, _, _ => exhausted
  | reach + 1, depth, table, es => do
    step
    match es with
    | [] => pure []
    | e :: rest => do
      let value ← evaluate policy reach depth table e
      let values ← evaluateAll policy reach depth table rest
      return value :: values

def execute (policy : Policy) : Nat → Nat → Statement → Metered Machine Outcome
  | 0, _, _ => exhausted
  | reach + 1, depth, s => do
    step
    match s with
    | .expression e => perform (evaluate policy reach depth) e
    | .block body =>
      inScope (Statement.shadows (.block body)) (executeAll policy reach depth body none)
    | .ifThen test yes => do
      let truth ← reading fun t => evaluate policy reach depth t test
      if Arithmetic.isTrue truth then inScope yes.shadows (execute policy reach depth yes)
      else return ⟨some 0.0, .normal⟩
    | .ifElse test yes no => do
      let truth ← reading fun t => evaluate policy reach depth t test
      if Arithmetic.isTrue truth then inScope yes.shadows (execute policy reach depth yes)
      else inScope no.shadows (execute policy reach depth no)
    | .whileLoop test body => loop policy reach depth test body none
    | .breakLoop => return ⟨none, .breaking⟩
    | .continueLoop => return ⟨none, .continuing⟩
    | .returnValue e => do
      if (← own get).table.callDepth = 0 then
        throw (.flow (.invalidReturn "'return' may only appear within a function or procedure"))
      else
        let value ← optional (evaluate policy reach depth) e
        return ⟨value, .returning⟩
    | .endRun e => do
      let value ← optional (evaluate policy reach depth) e
      own (modify fun m => { m with run := { m.run with exit := some value } })
      return ⟨value, .returning⟩
    | .letVar name init => do
      let value ← optional (evaluate policy reach depth) init
      own (Execution.updating fun t => t.assign name (value.getD 0.0))
      return ⟨some (value.getD 0.0), .normal⟩
    | .constVar name init => do
      let value ← reading fun t => evaluate policy reach depth t init
      own (Execution.updating fun t => t.declareConstant name value)
      return ⟨some value, .normal⟩
    | .define kind name params body => do
      own (Execution.updating fun t => t.declare kind ⟨name, params, body⟩)
      return ⟨none, .normal⟩
    | .call name args => do
      match (← own get).table.procedures[name]? with
      | none =>
        let value ← reading fun t => evaluate policy reach depth t (.call name args)
        return ⟨some value, .normal⟩
      | some procedure =>
        let values ← reading fun t => evaluateAll policy reach depth t args
        let result ← reading fun t => activate policy reach depth procedure values t
        own (Execution.merging result.1
          (procedure.params ++ Statement.shadows (.block procedure.body)))
        return ⟨none, .normal⟩

def executeAll (policy : Policy) :
    Nat → Nat → List Statement → Option Float → Metered Machine Outcome
  | 0, _, _, _ => exhausted
  | reach + 1, depth, body, value => do
    step
    match body with
    | [] => return ⟨value, .normal⟩
    | s :: rest => do
      let outcome ← execute policy reach depth s
      let value :=
        if outcome.value.isSome ∨ outcome.flow = .returning then outcome.value else value
      if outcome.flow ≠ .normal ∨ (← own Execution.halted) then return ⟨value, outcome.flow⟩
      else executeAll policy reach depth rest value

/-- A turn of a loop, and then the loop again. -/
def loop (policy : Policy) :
    Nat → Nat → Expr → Statement → Option Float → Metered Machine Outcome
  | 0, _, _, _, _ => exhausted
  | reach + 1, depth, test, body, value => do
    step
    match ← turn policy (reading fun t => evaluate policy reach depth t test)
      (inScope body.shadows (execute policy reach depth body)) with
    | none => return ⟨value, .normal⟩
    | some outcome =>
      let value := outcome.value <|> value
      match outcome.flow with
      | .breaking => return ⟨value, .normal⟩
      | .returning => return ⟨outcome.value, .returning⟩
      | .normal | .continuing => loop policy reach depth test body value

def activate (policy : Policy) :
    Nat → Nat → Subroutine → List Float → Table → Metered Run (Table × Option Float)
  | 0, _, _, _, _ => exhausted
  | reach + 1, depth, s, args, table => do
    step
    match depth with
    | 0 => throw .tooDeep
    | depth + 1 =>
      if args.length ≠ s.params.length then
        throw (.flow (.wrongArgumentCount s.name s.params.length args.length))
      else
        let scope ← own (Evaluation.ofExcept (table.enterCall.assignAll (s.params.zip args)))
        let result ← runBody scope (execute policy reach depth (.block s.body))
        match result.1.flow with
        | .breaking => throw (.flow .breakOutsideLoop)
        | .continuing => throw (.flow .continueOutsideLoop)
        | .normal | .returning => return (result.2, result.1.value)

end

/-- The statements of a program in turn. -/
def executeProgram (policy : Policy) : Nat → Program → Option Float → Metered Machine (Option Float)
  | 0, _, _ => exhausted
  | reach + 1, p, value => do
    step
    match p with
    | [] => return value
    | s :: rest => do
      let outcome ← execute policy reach policy.depth s
      match (← own get).run.exit, outcome.flow with
      | some value, _ => return value
      | none, .breaking => throw (.flow .breakOutsideLoop)
      | none, .continuing => throw (.flow .continueOutsideLoop)
      | none, _ => executeProgram policy reach rest outcome.value

end Metered

end Reckoner
