import Reckoner.Proofs.Recording
import Mathlib.Tactic.Common

/-! The step limit is transparent: it stops the runs that begin more turns of
loops than it allows, and no other run can tell that it is there. Turns are
counted through expressions, calls and scopes alike, so the comparison with the
run without a limit follows the whole syntax. -/
namespace Reckoner

open Attempt

/-- One way to carry out subroutines follows another. -/
def Activation.Follows (q : Policy) (activate activate' : Activation) : Prop :=
  ∀ s args t, Attempt.Follows q Run.steps (activate s args t) (activate' s args t)

variable {q : Policy} {patience : Nat} {activate activate' : Activation}

namespace Expr

mutual

/-- The induction is on the expression. Turns are counted inside of calls, and
these are assumed to follow. -/
theorem follows_evaluate (hActivate : Activation.Follows q activate activate') (t : Table)
    (e : Expr) :
    Follows q Run.steps (e.evaluate q activate t) (e.evaluate (q.freed patience) activate' t) := by
  match e with
  | number value _ => exact .pure value
  | name x => exact .of_inert (Evaluation.inert_ofExcept (lookup_ordinary t x))
  | unary op e =>
      refine .bind (follows_evaluate hActivate t e) fun a =>
        .of_inert (Evaluation.inert_ofExcept ?_)
      exact Arithmetic.settle_ordinary (Arithmetic.unary_ordinary op a)
  | binary op left right =>
      have hOperands : Follows q Run.steps
          (do
            let a ← left.evaluate q activate t
            let b ← right.evaluate q activate t
            Evaluation.ofExcept (Arithmetic.settle (Arithmetic.binary op a b)))
          (do
            let a ← left.evaluate (q.freed patience) activate' t
            let b ← right.evaluate (q.freed patience) activate' t
            Evaluation.ofExcept (Arithmetic.settle (Arithmetic.binary op a b))) := by
        refine .bind (follows_evaluate hActivate t left) fun a =>
          .bind (follows_evaluate hActivate t right) fun b => ?_
        exact .of_inert (Evaluation.inert_ofExcept
          (Arithmetic.settle_ordinary (Arithmetic.binary_ordinary op a b)))
      -- An assignment inside an expression only checks its target.
      cases op with
      | assign =>
          refine .bind (.of_inert (Evaluation.inert_ofExcept ?_)) fun _ =>
            follows_evaluate hActivate t right
          exact checkTarget_ordinary t .variableNotFound left
      | _ => exact hOperands
  | call callee args =>
      unfold evaluate
      cases Builtin.ofName? callee with
      | some builtin =>
          refine .bind (follows_evaluateAll hActivate t args) fun values => ?_
          exact .of_inert ((Builtin.inert_call q builtin values).comp Prod.fst)
      | none =>
          cases t.functions[callee]? with
          | some function =>
              refine .bind (follows_evaluateAll hActivate t args) fun values => ?_
              exact .bind (hActivate function values t) fun _ => .pure _
          | none => exact .throw (Failure.isStop_of_ordinary (uncallable_ordinary t callee))

theorem follows_evaluateAll (hActivate : Activation.Follows q activate activate') (t : Table)
    (es : List Expr) :
    Follows q Run.steps (evaluateAll q activate t es)
      (evaluateAll (q.freed patience) activate' t es) := by
  match es with
  | [] => exact .pure []
  | e :: rest =>
      refine .bind (follows_evaluate hActivate t e) fun value => ?_
      exact .bind (follows_evaluateAll hActivate t rest) fun values => .pure (value :: values)

end

end Expr

namespace Statement

open Execution

theorem follows_value (hActivate : Activation.Follows q activate activate') (e : Expr) :
    Follows q Machine.steps (reading fun t => e.evaluate q activate t)
      (reading fun t => e.evaluate (q.freed patience) activate' t) :=
  follows_reading fun t => e.follows_evaluate hActivate t

/-- A value may be left out in both runs. -/
theorem follows_optional (hActivate : Activation.Follows q activate activate')
    (e : Option Expr) :
    Follows q Machine.steps (execute.optional q activate e)
      (execute.optional (q.freed patience) activate' e) := by
  cases e with
  | none => exact .pure none
  | some e => exact .bind (follows_value hActivate e) fun value => .pure (some value)

/-- An expression by itself, where both runs store the same value. -/
theorem follows_perform (hActivate : Activation.Follows q activate activate') (e : Expr) :
    Follows q Machine.steps (e.perform q activate) (e.perform (q.freed patience) activate') := by
  unfold Expr.perform
  split
  · next x right =>
      refine .bind (follows_reading fun t => .of_inert (Evaluation.inert_ofExcept
        (Expr.checkTarget_ordinary t .undeclaredVariable (.name x)))) fun _ => ?_
      refine .bind (follows_value hActivate right) fun value => ?_
      refine .bind (.of_inert (inert_updating fun t => t.assign_ordinary x value)) fun _ => ?_
      exact .pure _
  · exact .bind (follows_value hActivate _) fun value => .pure _

mutual

/-- The induction is on the statement. Only loops need the patience: all other
statements are sequences of steps that follow one another. -/
theorem follows_execute (hActivate : Activation.Follows q activate activate')
    (hPatience : q.turns ≤ patience) (s : Statement) :
    Follows q Machine.steps (s.execute q activate) (s.execute (q.freed patience) activate') := by
  match s with
  | expression e => exact follows_perform hActivate e
  | block body =>
      exact follows_inScope _ (follows_executeAll hActivate hPatience body none)
  | ifThen test yes =>
      refine .bind (follows_value hActivate test) fun truth => ?_
      split
      · exact follows_inScope _ (follows_execute hActivate hPatience yes)
      · exact .pure _
  | ifElse test yes no =>
      refine .bind (follows_value hActivate test) fun truth => ?_
      split
      · exact follows_inScope _ (follows_execute hActivate hPatience yes)
      · exact follows_inScope _ (follows_execute hActivate hPatience no)
  | whileLoop test body =>
      exact follows_loop hPatience (follows_value hActivate test)
        (follows_inScope _ (follows_execute hActivate hPatience body)) none
  | breakLoop => exact .pure _
  | continueLoop => exact .pure _
  | returnValue e =>
      refine .bind (.of_inert fun _ => ⟨rfl, rfl⟩) fun m => ?_
      split
      · exact .throw rfl
      · exact .bind (follows_optional hActivate e) fun value => .pure _
  | endRun e =>
      refine .bind (follows_optional hActivate e) fun value => ?_
      exact .bind (.of_inert fun _ => ⟨rfl, rfl⟩) fun _ => .pure _
  | letVar name init =>
      refine .bind (follows_optional hActivate init) fun value => ?_
      exact .bind (.of_inert (inert_updating fun t => t.assign_ordinary name _)) fun _ => .pure _
  | constVar name init =>
      refine .bind (follows_value hActivate init) fun value => ?_
      exact .bind (.of_inert (inert_updating fun t => t.declareConstant_ordinary name value))
        fun _ => .pure _
  | define kind name params body =>
      exact .bind (.of_inert (inert_updating fun t => t.declare_ordinary kind _))
        fun _ => .pure _
  | call name args =>
      refine .bind (.of_inert fun _ => ⟨rfl, rfl⟩) fun m => ?_
      cases m.table.procedures[name]? with
      | none => exact .bind (follows_value hActivate (.call name args)) fun value => .pure _
      | some procedure =>
          refine .bind (follows_reading fun t => Expr.follows_evaluateAll hActivate t args)
            fun values => ?_
          refine .bind (follows_reading fun t => hActivate procedure values t) fun result => ?_
          exact .bind (.of_inert (inert_merging result.1 _)) fun _ => .pure _

/-- Statements in turn. A stop in one of them keeps the others from starting. -/
theorem follows_executeAll (hActivate : Activation.Follows q activate activate')
    (hPatience : q.turns ≤ patience) (body : List Statement) (value : Option Float) :
    Follows q Machine.steps (executeAll q activate body value)
      (executeAll (q.freed patience) activate' body value) := by
  match body with
  | [] => exact .pure _
  | s :: rest =>
      refine .bind (follows_execute hActivate hPatience s) fun outcome => ?_
      refine .bind (.of_inert inert_halted) fun ended => ?_
      split
      · exact .pure _
      · exact follows_executeAll hActivate hPatience rest _

end

end Statement

/-- The induction is on how deep calls may be nested. -/
theorem Subroutine.follows_activate (hPatience : q.turns ≤ patience) (depth : Nat) :
    Activation.Follows q (Subroutine.activate q depth)
      (Subroutine.activate (q.freed patience) depth) := by
  induction depth with
  | zero => exact fun s args t => .throw rfl
  | succ depth ih =>
      intro s args t
      unfold Subroutine.activate
      split
      · exact .throw rfl
      · refine .bind (.of_inert (Evaluation.inert_ofExcept (Table.assignAll_ordinary _ _)))
          fun scope => ?_
        refine .bind (follows_runBody scope (Statement.follows_execute ih hPatience _))
          fun result => ?_
        obtain ⟨⟨value, flow⟩, scope⟩ := result
        cases flow with
        | normal => exact .pure _
        | breaking => exact .throw rfl
        | continuing => exact .throw rfl
        | returning => exact .pure _

namespace Program

/-- Induction over the statements of a program. -/
theorem follows_execute (hPatience : q.turns ≤ patience) (p : Program) (value : Option Float) :
    Follows q Machine.steps (p.execute q value) (p.execute (q.freed patience) value) := by
  induction p generalizing value with
  | nil => exact .pure value
  | cons s rest ih =>
      have hActivate := Subroutine.follows_activate hPatience q.depth
      refine .bind (s.follows_execute hActivate hPatience) fun outcome => ?_
      refine .bind (.of_inert fun _ => ⟨rfl, rfl⟩) fun m => ?_
      obtain ⟨given, flow⟩ := outcome
      cases m.run.exit with
      | some value => exact .pure value
      | none =>
          cases flow with
          | normal => exact ih given
          | breaking => exact .throw rfl
          | continuing => exact .throw rfl
          | returning => exact ih given

end Program

/-- The same conditions under a limit on the turns of loops. -/
def Policy.limited (policy : Policy) (n : Nat) : Policy := { policy with limit := some n }

namespace Program

variable (policy : Policy) (p : Program) (m : Machine) {n : Nat}

/-- Without a limit, the run begins more than `n` turns of loops, if only it has
the patience. A run that goes on for ever does so for every `n`. -/
def Outlasts (n : Nat) : Prop := ∃ patience, n < (p.run (policy.freed patience) m).2.steps

/-- From a machine within the limit, both runs of a program agree up to the
stop. -/
theorem run_agrees (hPatience : q.turns ≤ patience) (hm : q.Allows m.steps) :
    Agrees q Machine.steps (p.run q m) (p.run (q.freed patience) m) :=
  (p.follows_execute hPatience none).agrees m hm

/-- With more patience a run does not begin fewer turns, as it follows the one
with less. -/
theorem steps_mono {less more : Nat} (h : less ≤ more) :
    (p.run (policy.freed less) m).2.steps ≤ (p.run (policy.freed more) m).2.steps := by
  have hAllows : (policy.freed less).Allows m.steps := by
    intro limit hLimit
    cases hLimit
  cases p.run_agrees m (q := policy.freed less) h hAllows with
  | same hSame _ _ => exact Nat.le_of_eq (by rw [hSame]; rfl)
  | stopped _ _ hFurther => exact hFurther

variable {m} (hStart : m.steps = 0)

include hStart

/-- The turns that a run counts are the bodies of loops that start in it. -/
theorem outlasts_iff_begun :
    p.Outlasts policy m n ↔
      ∃ patience, n < Event.begun (p.events (policy.freed patience) m) := by
  have hTurns (patience : Nat) : (p.run (policy.freed patience) m).2.steps =
      Event.begun (p.events (policy.freed patience) m) := by
    rw [p.steps_eq_begun rfl, hStart, Nat.zero_add]
  simp only [Outlasts, hTurns]

theorem limited_agrees (hPatience : n < patience) :
    Agrees (policy.limited n) Machine.steps (p.run (policy.limited n) m)
      (p.run (policy.freed patience) m) := by
  refine p.run_agrees m (q := policy.limited n) hPatience ?_
  rintro limit ⟨⟩
  omega

/-- The stop is told by the count of the other run, for any patience beyond the
limit. -/
theorem limited_stopped_iff (hPatience : n < patience) :
    (p.run (policy.limited n) m).1 = .error (.run (.iterationsExceeded n)) ↔
      n < (p.run (policy.freed patience) m).2.steps := by
  cases limited_agrees policy p hStart hPatience with
  | same hSame hGenuine hWithin =>
      have hSteps := hWithin n rfl
      constructor
      · intro hStop
        rw [hStop] at hGenuine
        cases hGenuine
      · intro hMore
        rw [← hSame] at hMore
        omega
  | stopped hStop hBeyond hFurther =>
      have hSteps := hBeyond n rfl
      exact ⟨fun _ => by omega, fun _ => hStop⟩

/-- A limit stops exactly the runs that outlast it. -/
theorem limited_stopped_iff_outlasts :
    (p.run (policy.limited n) m).1 = .error (.run (.iterationsExceeded n)) ↔
      p.Outlasts policy m n := by
  constructor
  · intro hStop
    exact ⟨n + 1, (limited_stopped_iff policy p hStart (Nat.lt_succ_self n)).mp hStop⟩
  · rintro ⟨patience, hMore⟩
    -- The patience that shows more than `n` turns may itself be no larger than `n`.
    have hPatience : n < max patience (n + 1) := by omega
    refine (limited_stopped_iff policy p hStart hPatience).mpr (Nat.lt_of_lt_of_le hMore ?_)
    exact p.steps_mono policy m (Nat.le_max_left patience (n + 1))

/-- The other runs end by themselves, and with patience for more than `n` turns
they end in the same way without a limit. -/
theorem limited_eq_freed (hEnds : ¬ p.Outlasts policy m n) (hPatience : n < patience) :
    isStopped (p.run (policy.limited n) m).1 = false ∧
      p.run (policy.freed patience) m = p.run (policy.limited n) m := by
  cases limited_agrees policy p hStart hPatience with
  | same hSame hGenuine _ => exact ⟨hGenuine, hSame.symm⟩
  | stopped hStop _ _ =>
      exact absurd ((limited_stopped_iff_outlasts policy p hStart).mp hStop) hEnds

/-- A run that a limit does not stop is not changed by a larger one. -/
theorem limited_eq_limited (hEnds : ¬ p.Outlasts policy m n) {larger : Nat} (h : n ≤ larger) :
    p.run (policy.limited larger) m = p.run (policy.limited n) m := by
  have hEnds' : ¬ p.Outlasts policy m larger := by
    rintro ⟨patience, hMore⟩
    exact hEnds ⟨patience, Nat.lt_of_le_of_lt h hMore⟩
  -- Both limits are compared with the same run without one.
  have hPatience : n < larger + 1 := by omega
  rw [← (limited_eq_freed policy p hStart hEnds hPatience).2,
    (limited_eq_freed policy p hStart hEnds' (Nat.lt_succ_self larger)).2]

end Program

/-- For every program, on every table and whatever the random numbers. A run
starts with no turns counted. One without a limit is observed with some patience
for its loops, and any patience beyond `n` shows the same. -/
theorem step_limit_transparent (policy : Policy) (p : Program) (t : Table) (drawn n : Nat) :
    let start : Machine := ⟨t, { drawn := drawn }⟩
    let result := p.run (policy.limited n) start
    (result.1 = .error (.run (.iterationsExceeded n)) ↔ p.Outlasts policy start n) ∧
    (¬ p.Outlasts policy start n →
      isStopped result.1 = false ∧
      (∀ patience > n, p.run (policy.freed patience) start = result) ∧
      (∀ larger ≥ n, p.run (policy.limited larger) start = result)) := by
  intro start result
  refine ⟨Program.limited_stopped_iff_outlasts policy p rfl, fun hEnds => ⟨?_, ?_, ?_⟩⟩
  · exact (Program.limited_eq_freed policy p rfl hEnds (Nat.lt_succ_self n)).1
  · intro patience hPatience
    exact (Program.limited_eq_freed policy p rfl hEnds hPatience).2
  · intro larger hLarger
    exact Program.limited_eq_limited policy p rfl hEnds hLarger

/-- Counts `x` down from three, inside a function that a test calls. -/
def threeTurns : Program :=
  [.define .function "count" ["x"]
    [.whileLoop (.name "x")
      (.expression (.binary .assign (.name "x") (.binary .sub (.name "x") (.number 1 "1"))))],
   .ifThen (.unary .not (.call "count" [.number 3 "3"])) (.letVar "y" none)]

/-- The run begins three turns: a limit of two stops it, and one of three or
more cannot be told from none. -/
theorem step_limit_transparent_three :
    let policy := Policy.usual none fun _ => 0.5
    let start : Machine := ⟨Table.empty, {}⟩
    (threeTurns.run (policy.limited 2) start).1 = .error (.run (.iterationsExceeded 2)) ∧
    threeTurns.Outlasts policy start 2 ∧ ¬ threeTurns.Outlasts policy start 3 ∧
    Event.begun (threeTurns.events policy start) = 3 ∧
    (threeTurns.run policy start).1 = .ok (some 0) ∧
    threeTurns.run policy start = threeTurns.run (policy.limited 3) start ∧
    threeTurns.run (policy.limited 1000) start = threeTurns.run (policy.limited 3) start := by
  intro policy start
  have hTwo : (threeTurns.run (policy.limited 2) start).1 =
      .error (.run (.iterationsExceeded 2)) := by decide +kernel
  have hThree : (threeTurns.run (policy.limited 3) start).1 ≠
      .error (.run (.iterationsExceeded 3)) := by decide +kernel
  obtain ⟨hStopped, _⟩ := step_limit_transparent policy threeTurns Table.empty 0 2
  obtain ⟨hEnded, hSame⟩ := step_limit_transparent policy threeTurns Table.empty 0 3
  have hEnds := hEnded.not.mp hThree
  obtain ⟨_, hFreed, hLarger⟩ := hSame hEnds
  refine ⟨hTwo, hStopped.mp hTwo, hEnds, by decide +kernel, by decide +kernel, ?_,
    hLarger 1000 (by decide)⟩
  exact hFreed Policy.usualPatience (by decide +kernel)

end Reckoner
