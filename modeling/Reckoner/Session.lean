import Reckoner.Interpreter
import Reckoner.Number.Text
import Reckoner.Report

/-! Sessions: one table, given one text after another. Each text that fails is
told at once, and the report starts anew. -/
namespace Reckoner

/-- What is written to the two streams of a program. -/
structure Printed where
  out : String := ""
  err : String := ""

instance : Append Printed := ⟨fun a b => ⟨a.out ++ b.out, a.err ++ b.err⟩⟩

/-- How a text ended. A failure that no report covers breaks the session off. -/
inductive Verdict where
  | fine
  | failed
  | broken (failure : Failure)

structure Session where
  policy : Policy
  table : Table
  /-- Random numbers read so far. -/
  drawn : Nat
  report : Report

namespace Session

def start (policy : Policy) (verbose : Bool) : Session :=
  ⟨policy, Table.empty, 0, ⟨verbose, none, []⟩⟩

/-- Carries out a text, as a program or as an expression. Each text is a run of
its own. -/
def attempt (s : Session) (text : String) (asProgram : Bool) :
    Except Failure (Option Float) × Session :=
  let machine : Machine := ⟨s.table, { drawn := s.drawn }⟩
  if asProgram then
    let (result, m) := execute s.policy text machine
    (result, { s with table := m.table, drawn := m.run.drawn })
  else
    let (result, run) := evaluate s.policy text machine
    (result.map some, { s with drawn := run.drawn })

/-- Tells what the report holds, and empties it. -/
def complain (s : Session) : Printed × Session :=
  (⟨"", s.report.complaint⟩, { s with report := s.report.reset })

/-- Carries out a text and prints its value, if it has one, or what went wrong. -/
def run (s : Session) (text : String) (asProgram : Bool) : Verdict × Printed × Session :=
  let (result, s) := s.attempt text asProgram
  match result with
  | .ok value => (.fine, ⟨(value.map fun v => Number.display v ++ "\n").getD "", ""⟩, s)
  | .error (.error e) =>
    (.failed, complain { s with report := (s.report.addError e text).1 })
  | .error .tooDeep => (.failed, complain { s with report := s.report.addOverflow.1 })
  | .error failure => (.broken failure, {}, s)

/-- The variables of a table with their values, one to a line. -/
def listVariables (t : Table) : String :=
  let width := (t.items.map fun (name, _) => name.length).foldl max 0
  let line (name : String) (value : Float) : String :=
    String.ofList (name.toList ++ List.replicate (width - name.length) ' ') ++ " = " ++
      Number.display value ++ (if t.isConstant name then " (constant)" else "") ++ "\n"
  if t.items.isEmpty then "No variables defined.\n"
  else String.join (t.items.map fun (name, value) => line name value)

end Session

end Reckoner
