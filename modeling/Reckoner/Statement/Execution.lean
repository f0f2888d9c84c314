import Reckoner.Expr.Evaluation

/-! Carrying out statements. Every statement has an outcome: a value, or none,
and how control goes on. The bodies of blocks, branches and turns of loops run
in scopes of their own, whose changes are copied back if they succeed. -/
namespace Reckoner

/-- How control goes on after a statement. -/
inductive Flow where
  | normal
  | breaking
  | continuing
  | returning
  deriving DecidableEq, Repr

structure Outcome where
  value : Option Float
  flow : Flow
  deriving DecidableEq, Repr

/-- A table together with a run that works on it. -/
structure Machine where
  table : Table
  run : Run

/-- A computation that may change the table. What was changed before a failure
remains. -/
abbrev Execution := ExceptT Failure (StateM Machine)

namespace Execution

/-- A computation that reads the table. -/
def reading {α : Type} (f : Table → Evaluation α) : Execution α :=
  ExceptT.mk fun m =>
    let (result, run) := (f m.table).run m.run
    (result, { m with run := run })

/-- Changes the table, or fails and leaves it. -/
def updating (f : Table → Except Failure Table) : Execution Unit :=
  ExceptT.mk fun m =>
    match f m.table with
    | .ok table => (.ok (), { m with table := table })
    | .error e => (.error e, m)

/-- Copies the changes of a scope back. What was copied before a failure remains. -/
def merging (scope : Table) (shadows : List String) : Execution Unit :=
  ExceptT.mk fun m =>
    let (result, table) := m.table.merge scope shadows
    (result, { m with table := table })

/-- Runs a body in a scope of its own and copies its changes back, except to the
names in `shadows`. If the body fails, the table stays as it was. -/
def inScope {α : Type} (shadows : List String) (body : Execution α) : Execution α :=
  ExceptT.mk fun m =>
    match body.run m with
    | (.ok a, inner) =>
      let (result, table) := m.table.merge inner.table shadows
      (result.map fun _ => a, ⟨table, inner.run⟩)
    | (.error e, inner) => (.error e, ⟨m.table, inner.run⟩)

def halted : Execution Bool := do return (← get).run.halted

/-- Counts one turn of a loop. The turn that exceeds the limit is counted too. -/
def tick (policy : Policy) : Execution Unit := do
  let m ← get
  let steps := m.run.steps + 1
  set { m with run := { m.run with steps := steps } }
  match policy.limit with
  | some limit => if limit < steps then throw (.run (.iterationsExceeded limit))
  | none => pure ()

/-- One turn of a loop: the test, the count and the body. The turn declines if
the run has ended or the test fails. -/
def turn (policy : Policy) (test : Execution Float) (body : Execution Outcome) :
    Execution (Option Outcome) := do
  if ← halted then return none
  let truth ← test
  if Arithmetic.isTrue truth then
    tick policy
    let outcome ← body
    return some outcome
  else return none

/-- Takes turns until one declines or leaves the loop, but no more than a given
number. `value` is the last value of a turn. -/
def loop (turn : Execution (Option Outcome)) : Nat → Option Float → Execution Outcome
  | 0, _ => throw .endless
  | turns + 1, value => do
    match ← turn with
    | none => return ⟨value, .normal⟩
    | some outcome =>
      let value := outcome.value <|> value
      match outcome.flow with
      | .breaking => return ⟨value, .normal⟩
      | .returning => return ⟨outcome.value, .returning⟩
      | .normal | .continuing => loop turn turns value

end Execution

/-- Carries out an expression that stands by itself. An assignment at its root
stores the value; those further inside are only checked. -/
def Expr.perform (policy : Policy) (activate : Activation) : Expr → Execution Outcome
  | .binary .assign (.name x) e => do
    Execution.reading fun t => Evaluation.ofExcept (checkTarget t .undeclaredVariable (.name x))
    let value ← Execution.reading fun t => e.evaluate policy activate t
    Execution.updating fun t => t.assign x value
    return ⟨some value, .normal⟩
  | e => do
    let value ← Execution.reading fun t => e.evaluate policy activate t
    return ⟨some value, .normal⟩

namespace Statement

mutual

/-- Carries out a statement. -/
def execute (policy : Policy) (activate : Activation) : Statement → Execution Outcome
  | expression e => e.perform policy activate
  | block body =>
    Execution.inScope (shadows (block body)) (executeAll policy activate body none)
  | ifThen test yes => do
    let truth ← Execution.reading fun t => test.evaluate policy activate t
    if Arithmetic.isTrue truth then Execution.inScope yes.shadows (execute policy activate yes)
    else return ⟨some 0.0, .normal⟩
  | ifElse test yes no => do
    let truth ← Execution.reading fun t => test.evaluate policy activate t
    if Arithmetic.isTrue truth then Execution.inScope yes.shadows (execute policy activate yes)
    else Execution.inScope no.shadows (execute policy activate no)
  | whileLoop test body =>
    let turn := Execution.turn policy
      (Execution.reading fun t => test.evaluate policy activate t)
      (Execution.inScope body.shadows (execute policy activate body))
    Execution.loop turn policy.turns none
  | breakLoop => return ⟨none, .breaking⟩
  | continueLoop => return ⟨none, .continuing⟩
  | returnValue e => do
    if (← get).table.callDepth = 0 then
      throw (.flow (.invalidReturn "'return' may only appear within a function or procedure"))
    else
      let value ← optional policy activate e
      return ⟨value, .returning⟩
  | endRun e => do
    let value ← optional policy activate e
    modify fun m => { m with run := { m.run with exit := some value } }
    return ⟨value, .returning⟩
  | letVar name init => do
    let value := (← optional policy activate init).getD 0.0
    Execution.updating fun t => t.assign name value
    return ⟨some value, .normal⟩
  | constVar name init => do
    let value ← Execution.reading fun t => init.evaluate policy activate t
    Execution.updating fun t => t.declareConstant name value
    return ⟨some value, .normal⟩
  | define kind name params body => do
    Execution.updating fun t => t.declare kind ⟨name, params, body⟩
    return ⟨none, .normal⟩
  | call name args => do
    match (← get).table.procedures[name]? with
    | none =>
      let value ← Execution.reading fun t => (Expr.call name args).evaluate policy activate t
      return ⟨some value, .normal⟩
    | some procedure =>
      let values ← Execution.reading fun t => Expr.evaluateAll policy activate t args
      let (scope, _) ← Execution.reading fun t => activate procedure values t
      Execution.merging scope (procedure.params ++ shadows (block procedure.body))
      return ⟨none, .normal⟩
where
  /-- The value of an expression that may be left out. -/
  optional (policy : Policy) (activate : Activation) : Option Expr → Execution (Option Float)
    | none => return none
    | some e => do
      let value ← Execution.reading fun t => e.evaluate policy activate t
      return some value

/-- Carries out statements in turn, up to the first that diverts control or ends
the run. The value is the last one that a statement gave. -/
def executeAll (policy : Policy) (activate : Activation) :
    List Statement → Option Float → Execution Outcome
  | [], value => return ⟨value, .normal⟩
  | s :: rest, value => do
    let outcome ← execute policy activate s
    let value :=
      if outcome.value.isSome ∨ outcome.flow = .returning then outcome.value else value
    if outcome.flow ≠ .normal ∨ (← Execution.halted) then return ⟨value, outcome.flow⟩
    else executeAll policy activate rest value

end

end Statement

namespace Subroutine

/-- Carries out a subroutine, in a scope in which its parameters stand for the
arguments. Calls inside its body may go `depth` deep. -/
def activate (policy : Policy) : Nat → Activation
  | 0, _, _, _ => throw .tooDeep
  | depth + 1, s, args, table => do
    if args.length ≠ s.params.length then
      throw (.flow (.wrongArgumentCount s.name s.params.length args.length))
    else
      let scope ← Evaluation.ofExcept (table.enterCall.assignAll (s.params.zip args))
      let (outcome, scope) ← runBody scope
        ((Statement.block s.body).execute policy (activate policy depth))
      match outcome.flow with
      | .breaking => throw (.flow .breakOutsideLoop)
      | .continuing => throw (.flow .continueOutsideLoop)
      | .normal | .returning => return (scope, outcome.value)
where
  /-- Runs a body on a table of its own, which comes back with the outcome. -/
  runBody (scope : Table) (body : Execution Outcome) : Evaluation (Outcome × Table) :=
    ExceptT.mk fun run =>
      match body.run ⟨scope, run⟩ with
      | (.ok outcome, m) => (.ok (outcome, m.table), m.run)
      | (.error e, m) => (.error e, m.run)

end Subroutine

end Reckoner
