import Reckoner.Error

/-! The state of one run and the conditions it is under. Random numbers are not
drawn from a hidden source: a run reads them from a given stream and counts how
many it has read. -/
namespace Reckoner

/-- What a run has done so far. -/
structure Run where
  /-- Turns of loops begun, in all loops together. -/
  steps : Nat := 0
  /-- The value given to the last `end` statement carried out, once there was one. -/
  exit : Option (Option Float) := none
  /-- Random numbers read from the stream. -/
  drawn : Nat := 0

/-- Whether an `end` statement was carried out. -/
def Run.halted (r : Run) : Bool := r.exit.isSome

/-- The conditions of a run. -/
structure Policy where
  /-- The largest number of turns of loops, if there is one. -/
  limit : Option Int
  /-- How many calls may be under way inside one another. -/
  depth : Nat
  /-- How many turns a single loop may take in a run without a limit. -/
  patience : Nat
  /-- The stream of random numbers, from zero up to but not including one. -/
  draws : Nat → Float

/-- A bound on the turns of a single loop. Under a limit, the turn that exceeds
the limit is the last one begun. -/
def Policy.turns (p : Policy) : Nat :=
  match p.limit with
  | some limit => limit.toNat + 1
  | none => p.patience

/-- A computation that takes part in a run. What the run has done remains when
the computation fails. -/
abbrev Evaluation := ExceptT Failure (StateM Run)

namespace Evaluation

/-- A step that may fail and does not touch the run. -/
def ofExcept {α : Type} : Except Failure α → Evaluation α
  | .ok a => pure a
  | .error e => throw e

/-- Reads the next random number. -/
def draw (policy : Policy) : Evaluation Float := do
  let run ← get
  set { run with drawn := run.drawn + 1 }
  return policy.draws run.drawn

end Evaluation

end Reckoner
