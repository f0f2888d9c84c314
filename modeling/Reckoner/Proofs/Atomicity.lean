import Reckoner.Proofs.Reachable
import Mathlib.Tactic.Common

/-! Failure leaves no trace. A statement that fails leaves the table as it was,
except that a loop keeps the turns it had completed. A program that fails keeps
the statements it had carried out. Nothing is said about the run, which goes on
counting turns and random numbers. -/
namespace Reckoner

open Attempt

namespace Statement

/-- The turn of a loop, as `execute` takes it. -/
def turn (policy : Policy) (test : Expr) (body : Statement) : Execution (Option Outcome) :=
  Execution.turn policy (Execution.reading fun t => test.evaluate policy policy.activation t)
    (Execution.inScope body.shadows (body.execute policy policy.activation))

/-- The loop completes some turns. In each of them the run has not ended, the
test holds, the count stays within the limit, and the body, carried out in a
scope of its own on the table that the turns before have left, lets the loop go
on. -/
inductive Completes (policy : Policy) (test : Expr) (body : Statement) (m : Machine) :
    Machine → Prop where
  | start : Completes policy test body m m
  | next {before after : Machine} {truth : Float} {run : Run} {outcome : Outcome}
      (prior : Completes policy test body m before)
      (running : before.run.halted = false)
      (tested : runOn (test.evaluate policy policy.activation before.table) before.run =
        (.ok truth, run))
      (holds : Arithmetic.isTrue truth = true)
      (within : ∀ limit, policy.limit = some limit → (run.steps + 1 : Nat) ≤ limit)
      (completed : runOn (Execution.inScope body.shadows (body.execute policy policy.activation))
        ⟨before.table, { run with steps := run.steps + 1 }⟩ = (.ok outcome, after))
      (goesOn : outcome.flow = .normal ∨ outcome.flow = .continuing) :
      Completes policy test body m after

/-- What is left when a statement has failed with `f`. For a loop this is the
table after the completed turns, and the turn that follows them is the one that
fails, or there is no patience for it. -/
def Leaves (policy : Policy) (s : Statement) (m : Machine) (f : Failure) (m' : Machine) : Prop :=
  match s with
  | whileLoop test body =>
    ∃ last, Completes policy test body m last ∧ m'.table = last.table ∧
      (runOn (turn policy test body) last = (.error f, m') ∨ f = .endless)
  | _ => m'.table = m.table

/-- A turn that fails leaves the table as it was, because its body works on a
scope. -/
theorem turn_error_table {policy : Policy} {test : Expr} {body : Statement} {m m' : Machine}
    {f : Failure} (hSound : m.table.Sound)
    (h : runOn (turn policy test body) m = (.error f, m')) : m'.table = m.table :=
  (Execution.meets_turn hSound policy body.shadows _ _).error rfl h

/-- The induction is on the turns that are left; the machine in front of the
turn to be taken has completed all the turns before. -/
theorem loop_leaves {policy : Policy} {test : Expr} {body : Statement} {f : Failure}
    {start m m' : Machine} (hSound : m.table.Sound)
    (prior : Completes policy test body start m) (turns : Nat) (value : Option Float)
    (h : runOn (Execution.loop (turn policy test body) turns value) m = (.error f, m')) :
    (whileLoop test body).Leaves policy start f m' := by
  induction turns generalizing m value with
  | zero =>
      cases h
      exact ⟨_, prior, rfl, .inr rfl⟩
  | succ turns ih =>
      rcases bind_error_iff.mp h with hTurn | ⟨result, after, hTurn, h⟩
      · exact ⟨m, prior, turn_error_table hSound hTurn, .inl hTurn⟩
      · cases result with
        | none => cases h
        | some outcome =>
            obtain ⟨given, flow⟩ := outcome
            obtain ⟨truth, tested, hRunning, hTest, hTrue, hWithin, hBody⟩ :=
              Execution.turn_taken hTurn
            obtain ⟨run, hValue, rfl⟩ := Execution.reading_ok hTest
            have hNext (hFlow : flow = .normal ∨ flow = .continuing) :
                Completes policy test body start after :=
              .next prior hRunning hValue hTrue hWithin hBody hFlow
            have hAfter := Execution.turn_sound hSound hTurn
            cases flow with
            | normal => exact ih hAfter (hNext (.inl rfl)) _ h
            | breaking => cases h
            | continuing => exact ih hAfter (hNext (.inr rfl)) _ h
            | returning => cases h

theorem run_leaves {policy : Policy} {s : Statement} {m m' : Machine} {f : Failure}
    (hSound : m.table.Sound) (h : s.run policy m = (.error f, m')) : s.Leaves policy m f m' := by
  cases hs : s.isLoop with
  | false =>
      have hTable : m'.table = m.table := (meets_execute hSound hs).error rfl h
      cases s with
      | whileLoop test body => cases hs
      | _ => exact hTable
  | true =>
      cases s with
      | whileLoop test body => exact loop_leaves hSound .start policy.turns none h
      | _ => cases hs

end Statement

namespace Program

/-- The statements are carried out in turn, and all of them succeed. -/
inductive Visits (policy : Policy) (m : Machine) : Program → Machine → Prop where
  | start : Visits policy m [] m
  | next {done : Program} {s : Statement} {outcome : Outcome} {before after : Machine}
      (prior : Visits policy m done before) (visited : s.run policy before = (.ok outcome, after)) :
      Visits policy m (done ++ [s]) after

/-- A program fails at one of its statements. Either the statement itself
fails, or it diverts control although no loop is there to be diverted. -/
def FailsAt (policy : Policy) (s : Statement) (m : Machine) (f : Failure) (m' : Machine) : Prop :=
  (s.run policy m = (.error f, m') ∧ s.Leaves policy m f m') ∨
  ∃ outcome, s.run policy m = (.ok outcome, m') ∧
    ((outcome.flow = .breaking ∧ f = .flow .breakOutsideLoop) ∨
      (outcome.flow = .continuing ∧ f = .flow .continueOutsideLoop))

/-- The induction is on the statements that are left; those before them were
carried out. -/
theorem execute_failsAt {policy : Policy} {start m m' : Machine} {f : Failure} {done p : Program}
    {value : Option Float} (hReachable : m.table.Reachable) (prior : Visits policy start done m)
    (h : runOn (p.execute policy value) m = (.error f, m')) :
    ∃ more s rest before, p = more ++ s :: rest ∧ Visits policy start (done ++ more) before ∧
      FailsAt policy s before f m' := by
  induction p generalizing m done value with
  | nil => cases h
  | cons s rest ih =>
      have hHere (hFails : FailsAt policy s m f m') :
          ∃ more s' rest' before, s :: rest = more ++ s' :: rest' ∧
            Visits policy start (done ++ more) before ∧ FailsAt policy s' before f m' :=
        ⟨[], s, rest, m, rfl, by simpa using prior, hFails⟩
      rcases bind_error_iff.mp h with hRun | ⟨⟨value', flow⟩, after, hRun, h⟩
      · exact hHere (.inl ⟨hRun, Statement.run_leaves hReachable.sound hRun⟩)
      · have hLater (h : runOn (Program.execute policy rest value') after = (.error f, m')) :
            ∃ more s' rest' before, s :: rest = more ++ s' :: rest' ∧
              Visits policy start (done ++ more) before ∧ FailsAt policy s' before f m' := by
          have hAfter : after.table.Reachable := by
            have hNext := Table.Reachable.run policy s hReachable
            rwa [show s.run policy m = _ from hRun] at hNext
          obtain ⟨more, s', rest', before, rfl, hVisits, hFails⟩ := ih hAfter (.next prior hRun) h
          exact ⟨s :: more, s', rest', before, rfl, by simpa using hVisits, hFails⟩
        -- The statement succeeded, so the program fails later, or here by its flow.
        rcases bind_error_iff.mp h with hGet | ⟨seen, _, hGet, h⟩
        · cases hGet
        · cases hGet
          cases hExit : after.run.exit with
          | some exit =>
              simp only [hExit] at h
              cases h
          | none =>
              simp only [hExit] at h
              cases flow with
              | normal => exact hLater h
              | breaking =>
                  cases h
                  exact hHere (.inr ⟨_, hRun, .inl ⟨rfl, rfl⟩⟩)
              | continuing =>
                  cases h
                  exact hHere (.inr ⟨_, hRun, .inr ⟨rfl, rfl⟩⟩)
              | returning => exact hLater h

end Program

/-- A statement that fails on a reachable table leaves it as it was, or, if it
is a loop, as the completed turns left it. Hence a program that fails leaves
the table that its statements before the failing one produced, with at most the
completed turns of that statement in addition. -/
theorem failure_atomic (policy : Policy) (m : Machine) (hReachable : m.table.Reachable) :
    (∀ (s : Statement) (f : Failure) (m' : Machine),
      s.run policy m = (.error f, m') → s.Leaves policy m f m') ∧
    (∀ (p : Program) (f : Failure) (m' : Machine), p.run policy m = (.error f, m') →
      ∃ done s rest before, p = done ++ s :: rest ∧ Program.Visits policy m done before ∧
        Program.FailsAt policy s before f m') := by
  refine ⟨fun s f m' h => Statement.run_leaves hReachable.sound h, fun p f m' h => ?_⟩
  simpa using Program.execute_failsAt hReachable .start h

/-- Divides by a number that each turn of a loop makes smaller by one. -/
def countdown : Program :=
  [.letVar "x" (some (.number 1 "1")),
   .whileLoop (.number 1 "1") (.block
     [.expression (.binary .div (.number 1 "1") (.name "x")),
      .expression (.binary .assign (.name "x") (.binary .sub (.name "x") (.number 1 "1")))])]

/-- The second turn of the loop divides by zero. As a program the countdown
keeps its first turn, as a block it keeps nothing. -/
theorem failure_atomic_countdown :
    let policy := Policy.usual none fun _ => 0.5
    let m : Machine := ⟨Table.empty, {}⟩
    (countdown.run policy m).1 = .error (.math .divisionByZero) ∧
    (countdown.run policy m).2.table.items = [("x", 0)] ∧
    (∃ done s rest before, countdown = done ++ s :: rest ∧
      Program.Visits policy m done before ∧
      Program.FailsAt policy s before (.math .divisionByZero) (countdown.run policy m).2) ∧
    ((Statement.block countdown).run policy m).1 = .error (.math .divisionByZero) ∧
    ((Statement.block countdown).run policy m).2.table = Table.empty := by
  intro policy m
  have hProgram : (countdown.run policy m).1 = .error (.math .divisionByZero) := by
    decide +kernel
  have hBlock : ((Statement.block countdown).run policy m).1 = .error (.math .divisionByZero) := by
    decide +kernel
  refine ⟨hProgram, by decide +kernel, ?_, hBlock, ?_⟩
  · apply (failure_atomic policy m .empty).2 countdown
    rw [← hProgram]
  · apply (failure_atomic policy m .empty).1 (.block countdown) (.math .divisionByZero)
    rw [← hBlock]

end Reckoner
