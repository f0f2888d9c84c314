import Reckoner.Error
import Reckoner.Report.Excerpt

/-! Reports collect what went wrong until it is told. -/
namespace Reckoner

/-- A report. Each issue is a text, the oldest first. -/
structure Report where
  verbose : Bool
  /-- The number of issues at which it is enough. -/
  maxIssues : Option Int
  issues : List String := []

namespace Report

def isEmpty (r : Report) : Bool := r.issues.isEmpty

/-- Adds an issue. The flag says that there are now too many. -/
def add (r : Report) (issue : String) : Report × Bool :=
  let issues := r.issues ++ [issue]
  ({ r with issues := issues }, r.maxIssues == some (issues.length : Int))

/-- How an error about a text is told: in one line, and with a picture of the
place if the text could not be read and is not blank. -/
def issueOf (e : Error) (text : String) : String :=
  match e with
  | .parse ⟨_, some token⟩ =>
    if (Text.strip text.toList).isEmpty then e.describe
    else e.describe ++ "\n" ++ Excerpt.render text token.start token.stop
  | _ => e.describe

def addError (r : Report) (e : Error) (text : String) : Report × Bool := r.add (issueOf e text)

/-- Adds that a run was nested too deeply. -/
def addOverflow (r : Report) : Report × Bool := r.add (Error.run .stackOverflow).describe

def reset (r : Report) : Report := { r with issues := [] }

/-- A remark on progress, told only on request. -/
def remark (r : Report) (words : List String) : String :=
  if r.verbose then " ".intercalate words ++ "\n" else ""

/-- All issues, each on lines of its own. -/
def complaint (r : Report) : String := String.join (r.issues.map (· ++ "\n"))

end Report

end Reckoner
