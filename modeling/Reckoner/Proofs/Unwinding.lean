import Reckoner.Proofs.Reachable
import Mathlib.Tactic.Common

/-! Control that leaves every body. Inside a subroutine this is what `return`
does, and the call takes it up. Where no call is under way, `return` fails, so
control gets out of a statement in this way only if the run has ended, and then
what it carries is the value of the run. -/
namespace Reckoner

open Attempt

/-- If control leaves every body, the run has ended with the value that control
carries. -/
def Outcome.EndsRun (o : Outcome) (m : Machine) : Prop :=
  o.flow = .returning → m.run.exit = some o.value

/-- Other ways for control to go on say nothing about the run. -/
theorem Outcome.endsRun_of_flow {flow : Flow} (h : flow ≠ .returning) (value : Option Float)
    (m : Machine) : EndsRun ⟨value, flow⟩ m := fun hFlow => absurd hFlow h

/-- No call is under way. -/
def Machine.Outside (m : Machine) : Prop := m.table.Sound ∧ m.table.callDepth = 0

namespace Execution

/-- An execution that starts where no call is under way, and whose outcome leaves
every body only if the run has ended. -/
def Unwinds (x : Execution Outcome) : Prop :=
  Meets Machine.Outside x (fun o m => o.EndsRun m) fun _ _ => True

variable {α : Type}

/-- A first step that is of no further interest, as long as it counts no call. -/
theorem unwinds_bind {x : Execution α} {f : α → Execution Outcome}
    (hFirst : Meets Machine.Outside x (fun _ => Machine.Outside) fun _ _ => True)
    (hRest : ∀ a, Unwinds (f a)) : Unwinds (x >>= f) := Meets.bind hFirst hRest

theorem unwinds_pure {flow : Flow} (h : flow ≠ .returning) (value : Option Float) :
    Unwinds (pure ⟨value, flow⟩) := Meets.pure fun m _ => Outcome.endsRun_of_flow h value m

/-- A last step may change the table as it likes. -/
theorem unwinds_last (x : Execution Unit) (value : Option Float) :
    Unwinds (x >>= fun _ => pure ⟨value, .normal⟩) :=
  Meets.bind (Q := fun _ _ => True) (Meets.of_state fun _ _ => trivial) fun _ =>
    Meets.pure fun m _ => Outcome.endsRun_of_flow (by decide) value m

/-- Reading a value counts no call on the table at hand. -/
theorem outside_reading (f : Table → Evaluation α) :
    Meets Machine.Outside (reading f) (fun _ => Machine.Outside) fun _ _ => True :=
  (meets_reading (fun t => t.Sound ∧ t.callDepth = 0) f).weakenFail fun _ _ _ => trivial

theorem outside_get :
    Meets Machine.Outside (get : Execution Machine) (fun _ => Machine.Outside)
      fun _ _ => True := fun _ hm => hm

/-- Copying back touches neither the run nor the outcome. -/
theorem unwinds_inScope {body : Execution Outcome} (h : Unwinds body) (shadows : List String) :
    Unwinds (inScope shadows body) := by
  intro m hm
  rw [runOn_inScope]
  rcases hRun : runOn body m with ⟨e | o, inner⟩
  · trivial
  · have hEnds : o.EndsRun inner := h.ok hm hRun
    simp only [leaving, Table.merge_isOk hm.1]
    exact hEnds

/-- A turn hands on the outcome of its body as it is. -/
theorem turn_unwinds {policy : Policy} {test : Table → Evaluation Float} {body : Execution Outcome}
    (hBody : Unwinds body) (shadows : List String) :
    Meets Machine.Outside (turn policy (reading test) (inScope shadows body))
      (fun taken m => m.Outside ∧ ∀ o, taken = some o → o.EndsRun m) fun _ _ => True := by
  intro m hm
  rcases hRun : runOn (turn policy (reading test) (inScope shadows body)) m with ⟨e | taken, after⟩
  · trivial
  · have hAfter : after.Outside := by
      rcases (meets_turn hm.1 policy shadows test body).ok rfl hRun with hTable | ⟨scope, hTable⟩
      · rwa [Machine.Outside, hTable]
      · have hFrame := Table.merge_frame m.table scope shadows
        rw [Machine.Outside, hTable]
        exact ⟨hFrame.sound hm.1, hFrame.callDepth.trans hm.2⟩
    refine ⟨hAfter, ?_⟩
    rintro o rfl
    obtain ⟨truth, tested, _, hTested, _, _, hTaken⟩ := turn_taken hRun
    obtain ⟨run, _, rfl⟩ := reading_ok hTested
    exact (unwinds_inScope hBody shadows).ok (s := counted ⟨m.table, run⟩) hm hTaken

/-- A loop hands on what leaves every body, and nothing else of that flow. The
induction is on the turns that are left. -/
theorem unwinds_loop {turn : Execution (Option Outcome)}
    (hTurn : Meets Machine.Outside turn
      (fun taken m => m.Outside ∧ ∀ o, taken = some o → o.EndsRun m) fun _ _ => True)
    (turns : Nat) (value : Option Float) : Unwinds (loop turn turns value) := by
  induction turns generalizing value with
  | zero => exact Meets.throw fun _ _ => trivial
  | succ turns ih =>
      refine Meets.bind hTurn fun taken => ?_
      cases taken with
      | none => exact Meets.pure fun m _ => Outcome.endsRun_of_flow (by decide) value m
      | some o =>
          obtain ⟨given, flow⟩ := o
          cases flow with
          | normal => exact (ih _).weaken (fun _ h => h.1) (fun _ _ h => h) fun _ _ h => h
          | breaking => exact Meets.pure fun m _ => Outcome.endsRun_of_flow (by decide) _ m
          | continuing => exact (ih _).weaken (fun _ h => h.1) (fun _ _ h => h) fun _ _ h => h
          | returning => exact Meets.pure fun _ h => h.2 _ rfl

end Execution

namespace Statement

open Execution

variable (policy : Policy) (activate : Activation)

/-- Statements enter no calls that they do not leave again. -/
theorem outside_execute (s : Statement) :
    Meets Machine.Outside (s.execute policy activate) (fun _ => Machine.Outside)
      fun _ _ => True :=
  (keeps (Table.stable_callDepth 0) policy activate s).weakenFail fun _ _ _ => trivial

theorem unwinds_value (e : Expr) {f : Float → Execution Outcome} (hRest : ∀ a, Unwinds (f a)) :
    Unwinds ((reading fun t => e.evaluate policy activate t) >>= f) :=
  unwinds_bind (outside_reading _) hRest

theorem outside_optional (e : Option Expr) :
    Meets Machine.Outside (execute.optional policy activate e) (fun _ => Machine.Outside)
      fun _ _ => True :=
  (meets_optional (fun t => t.Sound ∧ t.callDepth = 0) e).weakenFail fun _ _ _ => trivial

/-- An expression by itself goes on normally, whatever it calls. -/
theorem unwinds_perform (e : Expr) : Unwinds (e.perform policy activate) := by
  unfold Expr.perform
  split
  · refine unwinds_bind (outside_reading _) fun _ => ?_
    exact unwinds_value policy activate _ fun value => unwinds_last _ _
  · exact unwinds_value policy activate _ fun value => unwinds_pure (by decide) _

mutual

/-- The induction is on the statement. Only `end` gives rise to an outcome that
leaves every body, because `return` fails; the other statements hand it on. -/
theorem unwinds_execute (s : Statement) : Unwinds (s.execute policy activate) := by
  match s with
  | expression e => exact unwinds_perform policy activate e
  | block body => exact unwinds_inScope (unwinds_executeAll body none) _
  | ifThen test yes =>
      refine unwinds_value policy activate test fun truth => ?_
      split
      · exact unwinds_inScope (unwinds_execute yes) _
      · exact unwinds_pure (by decide) _
  | ifElse test yes no =>
      refine unwinds_value policy activate test fun truth => ?_
      split
      · exact unwinds_inScope (unwinds_execute yes) _
      · exact unwinds_inScope (unwinds_execute no) _
  | whileLoop test body =>
      exact unwinds_loop (turn_unwinds (unwinds_execute body) body.shadows) policy.turns none
  | breakLoop => exact unwinds_pure (by decide) _
  | continueLoop => exact unwinds_pure (by decide) _
  | returnValue e =>
      intro m hm
      have hFails : runOn ((returnValue e).execute policy activate) m =
          (.error (.flow (.invalidReturn
            "'return' may only appear within a function or procedure")), m) := by
        rw [execute, runOn_bind, runOn_get]
        dsimp only
        rw [if_pos hm.2, runOn_throw]
      rw [hFails]
      trivial
  | endRun e =>
      refine unwinds_bind (outside_optional policy activate e) fun value => ?_
      refine Meets.bind (Q := fun _ m => m.run.exit = some value) (Meets.modify fun _ _ => rfl)
        fun _ => ?_
      exact Meets.pure fun _ hExit _ => hExit
  | letVar name init =>
      exact unwinds_bind (outside_optional policy activate init) fun value => unwinds_last _ _
  | constVar name init => exact unwinds_value policy activate init fun value => unwinds_last _ _
  | define kind name params body => exact unwinds_last _ _
  | call name args =>
      refine unwinds_bind outside_get fun m => ?_
      split
      · exact unwinds_value policy activate _ fun value => unwinds_pure (by decide) _
      · refine unwinds_bind (outside_reading _) fun values => ?_
        exact unwinds_bind (outside_reading _) fun result => unwinds_last _ _

/-- Where a list of statements stops, the flow is that of the last one. -/
theorem unwinds_executeAll (body : List Statement) (value : Option Float) :
    Unwinds (executeAll policy activate body value) := by
  match body with
  | [] => exact unwinds_pure (by decide) _
  | s :: rest =>
      refine Meets.bind (((outside_execute policy activate s).and (unwinds_execute s)).weakenFail
        fun _ _ _ => trivial) fun o => ?_
      refine Meets.bind (meets_halted _ _) fun ended => ?_
      split
      · refine Meets.pure fun m h hFlow => ?_
        have hFlow : o.flow = .returning := hFlow
        simpa only [hFlow, or_true, if_true] using h.2 hFlow
      · exact (unwinds_executeAll rest _).weaken (fun _ h => h.1) (fun _ _ h => h) fun _ _ h => h

end

end Statement

namespace Program

/-- The program gets to a statement, on a machine: it is the first one, or the
statements before it were carried out, the run has not ended, and control was
not diverted by a `break` or a `continue`. -/
inductive Arrives (policy : Policy) : Program → Machine → Statement → Machine → Prop where
  | first (s : Statement) (rest : Program) (m : Machine) : Arrives policy (s :: rest) m s m
  | later {s s' : Statement} {rest : Program} {m m' m'' : Machine} {o : Outcome}
      (done : s.run policy m = (.ok o, m')) (runs : m'.run.exit = none)
      (stays : o.flow ≠ .breaking ∧ o.flow ≠ .continuing)
      (arrives : Arrives policy rest m' s' m'') : Arrives policy (s :: rest) m s' m''

variable {policy : Policy} {p : Program} {m m' : Machine} {s : Statement}

/-- Every statement that a program gets to is outside of calls, if the program
is. -/
theorem Arrives.outside (h : Arrives policy p m s m') (hm : m.Outside) : m'.Outside := by
  induction h with
  | first => exact hm
  | later done _ _ _ ih => exact ih ((Statement.outside_execute policy _ _).ok hm done)

/-- What a statement gives on which the program does not go on is what the
program gives. -/
theorem Arrives.run_eq (h : Arrives policy p m s m') {o : Outcome} {final : Machine}
    {value : Option Float} (hDone : s.run policy m' = (.ok o, final))
    (hExit : final.run.exit = some value) : p.run policy m = (.ok value, final) := by
  suffices hAny : ∀ given, runOn (p.execute policy given) m = (.ok value, final) from hAny none
  induction h with
  | first s rest m =>
      intro given
      have hDone : runOn (s.execute policy policy.activation) m = (.ok o, final) := hDone
      rw [execute, runOn_bind, hDone]
      dsimp only
      rw [runOn_bind, runOn_get]
      dsimp only
      rw [hExit, runOn_pure]
  | @later s _ rest m m₁ _ between done runs stays _ ih =>
      intro given
      have hFirst : runOn (s.execute policy policy.activation) m = (.ok between, m₁) := done
      rw [execute, runOn_bind, hFirst]
      dsimp only
      rw [runOn_bind, runOn_get]
      dsimp only
      rw [runs]
      obtain ⟨_, flow⟩ := between
      cases flow with
      | normal => exact ih hDone _
      | breaking => exact absurd rfl stays.1
      | continuing => exact absurd rfl stays.2
      | returning => exact ih hDone _

end Program

/-- On every table that comes about, where no call is under way, and in whatever
state the run is: if control leaves a statement and every body around it, the
run has ended with the value that control carries. So a program that gets to
such a statement stops there, and gives that value. -/
theorem returning_ends (policy : Policy) (m : Machine) (hReachable : m.table.Reachable)
    (hDepth : m.table.callDepth = 0) :
    (∀ (s : Statement) value m', s.run policy m = (.ok ⟨value, .returning⟩, m') →
      m'.run.halted = true ∧ m'.run.exit = some value) ∧
    ∀ (p : Program) (s : Statement) value m' final, p.Arrives policy m s m' →
      s.run policy m' = (.ok ⟨value, .returning⟩, final) → p.run policy m = (.ok value, final) := by
  have hExit {s : Statement} {m m' : Machine} (hm : m.Outside) {value : Option Float}
      (hRun : s.run policy m = (.ok ⟨value, .returning⟩, m')) : m'.run.exit = some value :=
    (s.unwinds_execute policy policy.activation).ok hm hRun rfl
  have hm : m.Outside := ⟨hReachable.sound, hDepth⟩
  refine ⟨fun s value m' hRun => ?_, fun p s value m' final hArrives hRun => ?_⟩
  · have hEnded := hExit hm hRun
    exact ⟨by rw [Run.halted, hEnded]; rfl, hEnded⟩
  · exact hArrives.run_eq hRun (hExit (hArrives.outside hm) hRun)

/-- The test of the conditional ends the run with nine before the branch ends it
again. Control carries the number five out of the branch, the block and the
loop. -/
def endingTwice : Statement :=
  .whileLoop (.number 1 "1") (.block
    [.ifThen (.call "stop" []) (.block [.endRun (some (.number 5 "5")), .letVar "x" none])])

/-- The program stops at the loop with five, and not with nine. -/
theorem returning_ends_twice :
    let policy := Policy.usual (some 4) fun _ => 0.5
    let stop : Statement := .define .function "stop" [] [.endRun (some (.number 9 "9"))]
    let start : Machine := ⟨Table.empty, {}⟩
    let declared := (stop.run policy start).2
    let final := (endingTwice.run policy declared).2
    start.table.Reachable ∧ start.table.callDepth = 0 ∧
    Program.Arrives policy [stop, endingTwice, .letVar "y" none] start endingTwice declared ∧
    (endingTwice.run policy declared).1 = .ok ⟨some 5, .returning⟩ ∧
    Program.run policy [stop, endingTwice, .letVar "y" none] start = (.ok (some 5), final) := by
  intro policy stop start declared final
  have hDeclares : (stop.run policy start).1 = .ok ⟨none, .normal⟩ := by decide +kernel
  have hArrives : Program.Arrives policy [stop, endingTwice, .letVar "y" none] start endingTwice
      declared :=
    .later (o := ⟨none, .normal⟩) (Prod.ext hDeclares rfl) (by decide +kernel) (by decide)
      (.first _ _ _)
  have hEnds : (endingTwice.run policy declared).1 = .ok ⟨some 5, .returning⟩ := by decide +kernel
  refine ⟨.empty, rfl, hArrives, hEnds, ?_⟩
  exact (returning_ends policy start .empty rfl).2 _ _ _ _ _ hArrives (Prod.ext hEnds rfl)

end Reckoner
