import Reckoner.Program
import Reckoner.Statement.Execution

/-! Running texts. `evaluate` gives an expression its value and leaves the table
alone; `execute` carries out a program against a table. -/
namespace Reckoner

namespace Policy

/-- How deep calls may be nested unless something else is asked for. -/
def usualDepth : Nat := 100

/-- How many turns a loop without a limit may take, which is more than any
machine will see. -/
def usualPatience : Nat := 1 <<< 62

/-- The usual conditions under a step limit and a stream of random numbers. -/
def usual (limit : Option Int) (draws : Nat → Float) : Policy :=
  ⟨limit, usualDepth, usualPatience, draws⟩

/-- How subroutines are carried out under these conditions. -/
def activation (p : Policy) : Activation := Subroutine.activate p p.depth

end Policy

/-- Carries out one statement on a machine. -/
def Statement.run (policy : Policy) (s : Statement) (m : Machine) :
    Except Failure Outcome × Machine :=
  (s.execute policy policy.activation).run m

namespace Program

/-- Carries out the statements of a program in turn. The value is that of the
last statement, or the one given to `end`. -/
def execute (policy : Policy) : Program → Option Float → Execution (Option Float)
  | [], value => return value
  | s :: rest, _ => do
    let outcome ← s.execute policy policy.activation
    match (← get).run.exit, outcome.flow with
    | some value, _ => return value
    | none, .breaking => throw (.flow .breakOutsideLoop)
    | none, .continuing => throw (.flow .continueOutsideLoop)
    | none, _ => execute policy rest outcome.value

/-- Carries out a program on a machine. -/
def run (policy : Policy) (p : Program) (m : Machine) : Except Failure (Option Float) × Machine :=
  (p.execute policy none).run m

end Program

/-- The value of a text that is an expression, and what the run did. -/
def evaluate (policy : Policy) (text : String) (m : Machine) : Except Failure Float × Run :=
  match Expr.ofText text with
  | .ok e => (e.evaluate policy policy.activation m.table).run m.run
  | .error e => (.error e, m.run)

/-- The value of a text that is a program, and what became of the machine. -/
def execute (policy : Policy) (text : String) (m : Machine) :
    Except Failure (Option Float) × Machine :=
  match Program.ofText text with
  | .ok p => p.run policy m
  | .error e => (.error e, m)

end Reckoner
