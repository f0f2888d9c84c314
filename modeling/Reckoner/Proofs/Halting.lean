import Reckoner.Proofs.Stops
import Reckoner.Proofs.Trace

/-! How the events of a run and its state belong together. A run has ended as
soon as an `end` statement was carried out, with the value of the last one; and
once it has ended, no list of statements and no loop goes on. -/
namespace Reckoner

open Attempt

/-- What a run would return if it were to stop now. -/
def Machine.exit (m : Machine) : Option (Option Float) := m.run.exit

namespace Event

/-- The exit of a run after an event. -/
def exitAfter (exit : Option (Option Float)) : Event → Option (Option Float)
  | ends _ value => some value
  | _ => exit

/-- The exit of a run after some events: the value of the last `end`, if any. -/
def exitAfterAll (exit : Option (Option Float)) (events : List Event) : Option (Option Float) :=
  events.foldl exitAfter exit

/-- The exit is carried from the first events to the second ones. -/
theorem exitAfterAll_append (exit : Option (Option Float)) (first second : List Event) :
    exitAfterAll exit (first ++ second) = exitAfterAll (exitAfterAll exit first) second :=
  List.foldl_append

/-- Lists of statements and loops go on only while the run has no exit. -/
def Orderly : Option (Option Float) → List Event → Prop
  | _, [] => True
  | exit, e :: rest => (e.isLater = true → exit = none) ∧ Orderly (e.exitAfter exit) rest

/-- Events in a row are in order if the first ones are, and the second ones are
from the exit that the first ones leave. -/
theorem orderly_append {exit : Option (Option Float)} {first second : List Event} :
    Orderly exit (first ++ second) ↔
      Orderly exit first ∧ Orderly (exitAfterAll exit first) second := by
  induction first generalizing exit with
  | nil => simp [Orderly, exitAfterAll]
  | cons e rest ih => simp [Orderly, exitAfterAll, ih, and_assoc]

/-- To end a run from inside an expression is to end it. -/
theorem exitAfter_inExpression (exit : Option (Option Float)) (e : Event) :
    e.inExpression.exitAfter exit = e.exitAfter exit := by
  cases e <;> rfl

theorem isLater_inExpression (e : Event) : e.inExpression.isLater = e.isLater := by
  cases e <;> rfl

theorem isPlainEnd_inExpression (e : Event) : e.inExpression.isPlainEnd = false := by
  cases e <;> rfl

/-- Marking events as inside an expression keeps the exit that they lead to. -/
theorem exitAfterAll_inExpression (exit : Option (Option Float)) (events : List Event) :
    exitAfterAll exit (events.map inExpression) = exitAfterAll exit events := by
  simp only [exitAfterAll, List.foldl_map, exitAfter_inExpression]

theorem orderly_inExpression {exit : Option (Option Float)} {events : List Event}
    (h : Orderly exit events) : Orderly exit (events.map inExpression) := by
  induction events generalizing exit with
  | nil => trivial
  | cons e rest ih =>
      obtain ⟨hLater, hRest⟩ := h
      simp only [List.map_cons, Orderly, isLater_inExpression, exitAfter_inExpression]
      exact ⟨hLater, ih hRest⟩

/-- Once a run has an exit, nothing goes on any more. -/
theorem Orderly.not_later {exit : Option (Option Float)} {events : List Event}
    (h : Orderly exit events) (hExit : exit ≠ none) : ∀ e ∈ events, e.isLater = false := by
  induction events generalizing exit with
  | nil => simp
  | cons e rest ih =>
      obtain ⟨hLater, hRest⟩ := h
      have hNext : e.exitAfter exit ≠ none := by
        cases e <;> simp [exitAfter, hExit]
      intro other hOther
      rcases List.mem_cons.mp hOther with rfl | hOther
      · exact Bool.eq_false_iff.mpr fun hh => hExit (hLater hh)
      · exact ih hRest hNext other hOther

end Event

namespace Attempt

variable {σ α β : Type} {allowed : Event → Prop} {exit : σ → Option (Option Float)}

/-- From one state, the events account for the exit of a run, they are in order,
and there are none but the allowed ones. -/
structure TracksAt (allowed : Event → Prop) (exit : σ → Option (Option Float)) (x : Attempt σ α)
    (events : List Event) (s : σ) : Prop where
  exit_eq : exit (runOn x s).2 = Event.exitAfterAll (exit s) events
  orderly : Event.Orderly (exit s) events
  allowed : ∀ e ∈ events, allowed e

/-- The events of a log account for a computation from every state. -/
def Tracks (allowed : Event → Prop) (exit : σ → Option (Option Float)) (x : Attempt σ α)
    (log : Log σ) : Prop := ∀ s, TracksAt allowed exit x (log s) s

namespace TracksAt

/-- A computation that leaves the exit alone needs no events. -/
theorem silent {x : Attempt σ α} {s : σ} (h : exit (runOn x s).2 = exit s) :
    TracksAt allowed exit x [] s where
  exit_eq := h
  orderly := trivial
  allowed _ he := nomatch he

/-- The events of two computations account for both in a row. If the first one
fails then its events are all. -/
theorem bind {x : Attempt σ α} {f : α → Attempt σ β} {log : Log σ} {next : α → Log σ} {s : σ}
    (hFirst : TracksAt allowed exit x (log s) s)
    (hRest : ∀ a s', runOn x s = (.ok a, s') → TracksAt allowed exit (f a) (next a s') s') :
    TracksAt allowed exit (x >>= f) (log.andThen x next s) s := by
  obtain ⟨hExit, hOrderly, hAllowed⟩ := hFirst
  rw [Log.andThen]
  rcases hRun : runOn x s with ⟨e | a, s'⟩ <;> rw [hRun] at hExit
  · rw [List.append_nil]
    exact ⟨by rwa [runOn_bind, hRun], hOrderly, hAllowed⟩
  · obtain ⟨hExit', hOrderly', hAllowed'⟩ := hRest a s' hRun
    rw [hExit] at hExit' hOrderly'
    refine ⟨?_, Event.orderly_append.mpr ⟨hOrderly, hOrderly'⟩, ?_⟩
    · rwa [runOn_bind, hRun, Event.exitAfterAll_append]
    · intro e he
      rcases List.mem_append.mp he with he | he
      · exact hAllowed e he
      · exact hAllowed' e he

/-- An event first that leaves the exit alone. -/
theorem cons {x : Attempt σ α} {events : List Event} {s : σ} {e : Event}
    (hExit : e.exitAfter (exit s) = exit s) (hLater : e.isLater = true → exit s = none)
    (hAllowed : allowed e) (h : TracksAt allowed exit x events s) :
    TracksAt allowed exit x (e :: events) s where
  exit_eq := by
    rw [Event.exitAfterAll, List.foldl_cons, hExit]
    exact h.exit_eq
  orderly := by
    rw [Event.Orderly, hExit]
    exact ⟨hLater, h.orderly⟩
  allowed other hOther := by
    rcases List.mem_cons.mp hOther with rfl | hOther
    · exact hAllowed
    · exact h.allowed other hOther

end TracksAt

namespace Tracks

theorem silent {x : Attempt σ α} (h : ∀ s, exit (runOn x s).2 = exit s) :
    Tracks allowed exit x Log.silent := fun s => .silent (h s)

theorem pure (a : α) : Tracks allowed exit (Pure.pure a : Attempt σ α) Log.silent :=
  silent fun _ => rfl

theorem throw (e : Failure) :
    Tracks allowed exit (MonadExcept.throw e : Attempt σ α) Log.silent := silent fun _ => rfl

/-- More events may be allowed than occur. -/
theorem weaken {x : Attempt σ α} {log : Log σ} {allowed' : Event → Prop}
    (h : Tracks allowed exit x log) (hAllowed : ∀ e, allowed e → allowed' e) :
    Tracks allowed' exit x log :=
  fun s => ⟨(h s).exit_eq, (h s).orderly, fun e he => hAllowed e ((h s).allowed e he)⟩

/-- The log of computations in a row accounts for them from every state. -/
theorem bind {x : Attempt σ α} {f : α → Attempt σ β} {log : Log σ} {next : α → Log σ}
    (hFirst : Tracks allowed exit x log) (hRest : ∀ a, Tracks allowed exit (f a) (next a)) :
    Tracks allowed exit (x >>= f) (log.andThen x next) :=
  fun s => (hFirst s).bind fun a s' _ => hRest a s'

/-- What follows may have no events of its own. -/
theorem bind_silent {x : Attempt σ α} {f : α → Attempt σ β} {log : Log σ}
    (hFirst : Tracks allowed exit x log) (hRest : ∀ a, Tracks allowed exit (f a) Log.silent) :
    Tracks allowed exit (x >>= f) log := by
  have hBind := bind hFirst hRest
  rwa [Log.andThen_silent] at hBind

end Tracks

end Attempt

/-- What an expression may do: the end of a run is then inside it. -/
def Event.Inner (e : Event) : Prop := e.isPlainEnd = false

/-- The events of subroutines are accounted for. -/
def Activation.Tracks (activate : Activation) (calls : Activation.Log) : Prop :=
  ∀ s args t, Attempt.Tracks (fun _ => True) Run.exit (activate s args t) (calls s args t)

namespace Expr

variable {policy : Policy} {activate : Activation} {calls : Activation.Log}

theorem tracks_ofExcept {α : Type} {allowed : Event → Prop} (r : Except Failure α) :
    Tracks allowed Run.exit (Evaluation.ofExcept r) Log.silent := by
  cases r with
  | ok a => exact .pure a
  | error e => exact .throw e

/-- Inside an expression, the events of a function are those of its body. -/
theorem tracks_call (hCalls : Activation.Tracks activate calls) (function : Subroutine)
    (values : List Float) (t : Table) :
    Tracks Event.Inner Run.exit (activate function values t)
      fun run => (calls function values t run).map Event.inExpression := by
  intro run
  obtain ⟨hExit, hOrderly, _⟩ := hCalls function values t run
  refine ⟨?_, Event.orderly_inExpression hOrderly, ?_⟩
  · rwa [Event.exitAfterAll_inExpression]
  · intro e he
    obtain ⟨original, _, rfl⟩ := List.mem_map.mp he
    exact Event.isPlainEnd_inExpression original

mutual

/-- The induction is on the expression. Only calls of subroutines have events,
and these are then inside an expression. -/
theorem tracks_evaluate (hCalls : Activation.Tracks activate calls) (t : Table) (e : Expr) :
    Tracks Event.Inner Run.exit (e.evaluate policy activate t)
      (e.events policy activate calls t) := by
  match e with
  | number value _ => exact .pure value
  | name x => exact tracks_ofExcept (lookup t x)
  | unary op e => exact .bind_silent (tracks_evaluate hCalls t e) fun a => tracks_ofExcept _
  | binary op left right =>
      have hOperands : Tracks Event.Inner Run.exit
          (do
            let a ← left.evaluate policy activate t
            let b ← right.evaluate policy activate t
            Evaluation.ofExcept (Arithmetic.settle (Arithmetic.binary op a b)))
          ((left.events policy activate calls t).andThen (left.evaluate policy activate t) fun _ =>
            right.events policy activate calls t) := by
        refine .bind (tracks_evaluate hCalls t left) fun a => ?_
        exact .bind_silent (tracks_evaluate hCalls t right) fun b => tracks_ofExcept _
      cases op with
      | assign => exact .bind (tracks_ofExcept _) fun _ => tracks_evaluate hCalls t right
      | _ => exact hOperands
  | call callee args =>
      have hArgs : Tracks Event.Inner Run.exit (evaluateAll policy activate t args)
          (eventsAll policy activate calls t args) := tracks_evaluateAll hCalls t args
      unfold evaluate events
      cases Builtin.ofName? callee with
      | some builtin =>
          refine .bind_silent hArgs fun values => .silent fun run => ?_
          exact congrArg Prod.snd (Builtin.inert_call policy builtin values run).1
      | none =>
          cases t.functions[callee]? with
          | some function =>
              refine .bind hArgs fun values => ?_
              exact .bind_silent (tracks_call hCalls function values t) fun _ => .pure _
          | none => exact .throw _

/-- Arguments are evaluated in turn, and their events follow each other. -/
theorem tracks_evaluateAll (hCalls : Activation.Tracks activate calls) (t : Table)
    (es : List Expr) :
    Tracks Event.Inner Run.exit (evaluateAll policy activate t es)
      (eventsAll policy activate calls t es) := by
  match es with
  | [] => exact .pure []
  | e :: rest =>
      refine .bind (tracks_evaluate hCalls t e) fun value => ?_
      exact .bind_silent (tracks_evaluateAll hCalls t rest) fun values => .pure _

end

end Expr

namespace Execution

variable {α : Type} {allowed : Event → Prop}

/-- An evaluation has the events that it has on the table of the machine. -/
theorem tracks_reading {f : Table → Evaluation α} {log : Table → Log Run}
    (h : ∀ t, Tracks allowed Run.exit (f t) (log t)) :
    Tracks allowed Machine.exit (reading f) (Log.reading log) :=
  fun m => ⟨(h m.table m.run).exit_eq, (h m.table m.run).orderly, (h m.table m.run).allowed⟩

/-- Tables know nothing of the exit. -/
theorem tracks_updating (f : Table → Except Failure Table) :
    Tracks allowed Machine.exit (updating f) Log.silent := by
  refine .silent fun m => ?_
  rw [runOn_updating]
  cases f m.table <;> rfl

theorem tracks_merging (scope : Table) (shadows : List String) :
    Tracks allowed Machine.exit (merging scope shadows) Log.silent := .silent fun _ => rfl

/-- A scope adds no events, since merging tables ends no run. -/
theorem tracks_inScope {x : Execution α} {log : Log Machine} (shadows : List String)
    (h : Tracks allowed Machine.exit x log) :
    Tracks allowed Machine.exit (inScope shadows x) log := by
  intro m
  obtain ⟨hExit, hOrderly, hAllowed⟩ := h m
  refine ⟨?_, hOrderly, hAllowed⟩
  rw [runOn_inScope]
  rcases hRun : runOn x m with ⟨e | a, inner⟩ <;> rw [hRun] at hExit <;> exact hExit

/-- Counting a turn ends no run, even where the limit stops it. -/
theorem tracks_tick (policy : Policy) : Tracks allowed Machine.exit (tick policy) Log.silent := by
  refine .silent fun m => ?_
  rw [runOn_tick]
  cases policy.limit with
  | none => rfl
  | some limit =>
      dsimp only
      split <;> rfl

/-- A run that has not ended has no exit. -/
theorem exit_eq_none {m : Machine} (h : ¬ m.run.halted = true) : m.exit = none := by
  simpa [Machine.exit, Run.halted] using h

/-- What happens may depend on the machine as it is. -/
theorem tracksAt_get {f : Machine → Execution α} {events : List Event} {m : Machine}
    (h : TracksAt allowed Machine.exit (f m) events m) :
    TracksAt allowed Machine.exit (get >>= f) events m := ⟨h.exit_eq, h.orderly, h.allowed⟩

/-- Asking whether the run has ended is no event. -/
theorem tracksAt_halted {f : Bool → Execution α} {events : List Event} {m : Machine}
    (h : TracksAt allowed Machine.exit (f m.run.halted) events m) :
    TracksAt allowed Machine.exit (halted >>= f) events m := ⟨h.exit_eq, h.orderly, h.allowed⟩

/-- A body may start at any time. -/
theorem tracks_started {x : Execution α} {log : Log Machine} {start : Event}
    (hStart : start = .enters ∨ start = .begins)
    (h : Tracks (fun _ => True) Machine.exit x log) :
    Tracks (fun _ => True) Machine.exit x (Log.after start log) := by
  intro m
  rcases hStart with rfl | rfl
  · exact (h m).cons rfl (fun hh => nomatch hh) trivial
  · exact (h m).cons rfl (fun hh => nomatch hh) trivial

/-- A turn starts only in a run without an exit, since it asks first. This makes
its first event an orderly one. -/
theorem tracks_turn (policy : Policy) {test : Execution Float} {body : Execution Outcome}
    {testLog bodyLog : Log Machine} (hTest : Tracks (fun _ => True) Machine.exit test testLog)
    (hBody : Tracks (fun _ => True) Machine.exit body bodyLog) :
    Tracks (fun _ => True) Machine.exit (turn policy test body)
      (Log.turn policy test testLog bodyLog) := by
  intro m
  refine tracksAt_halted ?_
  unfold Log.turn
  by_cases hHalted : m.run.halted = true
  · rw [if_pos hHalted, if_pos hHalted]
    exact .silent rfl
  · rw [if_neg hHalted, if_neg hHalted]
    refine .cons rfl (fun _ => exit_eq_none hHalted) trivial
      ((hTest m).bind fun truth tested _ => ?_)
    split
    · refine (tracks_tick policy tested).bind fun _ counted _ => ?_
      exact (tracks_started (.inr rfl) hBody).bind_silent (fun _ => .pure _) counted
    · exact .silent rfl

/-- Induction over the turns that are left: the log of a loop is made of the
logs of its turns. -/
theorem tracks_loop {turn : Execution (Option Outcome)} {log : Log Machine}
    (h : Tracks (fun _ => True) Machine.exit turn log) (turns : Nat) (value : Option Float) :
    Tracks (fun _ => True) Machine.exit (loop turn turns value) (Log.loop turn log turns) := by
  induction turns generalizing value with
  | zero => exact .throw .endless
  | succ turns ih =>
      refine .bind h fun taken => ?_
      cases taken with
      | none => exact .pure _
      | some outcome =>
          obtain ⟨given, flow⟩ := outcome
          cases flow with
          | normal => exact ih _
          | breaking => exact .pure _
          | continuing => exact ih _
          | returning => exact .pure _

end Execution

namespace Statement

open Execution

variable {policy : Policy} {activate : Activation} {calls : Activation.Log}

theorem tracks_value (hCalls : Activation.Tracks activate calls) (e : Expr) :
    Tracks Event.Inner Machine.exit (reading fun t => e.evaluate policy activate t)
      (Log.reading fun t => e.events policy activate calls t) :=
  tracks_reading fun t => e.tracks_evaluate hCalls t

theorem tracks_values (hCalls : Activation.Tracks activate calls) (args : List Expr) :
    Tracks Event.Inner Machine.exit (reading fun t => Expr.evaluateAll policy activate t args)
      (Log.reading fun t => Expr.eventsAll policy activate calls t args) :=
  tracks_reading fun t => Expr.tracks_evaluateAll hCalls t args

/-- A value that is left out has no events. -/
theorem tracks_optional (hCalls : Activation.Tracks activate calls) (e : Option Expr) :
    Tracks Event.Inner Machine.exit (execute.optional policy activate e)
      (optionalEvents policy activate calls e) := by
  cases e with
  | none => exact .pure none
  | some e => exact .bind_silent (tracks_value hCalls e) fun value => .pure _

/-- An expression by itself. Storing its value adds nothing. -/
theorem tracks_perform (hCalls : Activation.Tracks activate calls) (e : Expr) :
    Tracks Event.Inner Machine.exit (e.perform policy activate)
      (e.performance policy activate calls) := by
  by_cases hAssigns : ∃ x right, e = .binary .assign (.name x) right
  · obtain ⟨x, right, rfl⟩ := hAssigns
    refine .bind (tracks_reading fun t => Expr.tracks_ofExcept _) fun _ => ?_
    refine .bind_silent (tracks_value hCalls right) fun value => ?_
    exact .bind_silent (tracks_updating _) fun _ => .pure _
  · have hShape (x : String) (right : Expr) (h : e = .binary .assign (.name x) right) : False :=
      hAssigns ⟨x, right, h⟩
    rw [Expr.perform.eq_2 policy activate e hShape,
      Expr.performance.eq_2 policy activate calls e hShape]
    exact .bind_silent (tracks_value hCalls e) fun value => .pure _

mutual

/-- The induction is on the statement, and each step of it brings its own events. -/
theorem tracks_execute (hCalls : Activation.Tracks activate calls) (s : Statement) :
    Tracks (fun _ => True) Machine.exit (s.execute policy activate)
      (s.events policy activate calls) := by
  have hValue (e : Expr) : Tracks (fun _ => True) Machine.exit
      (reading fun t => e.evaluate policy activate t)
      (Log.reading fun t => e.events policy activate calls t) :=
    (tracks_value hCalls e).weaken fun _ _ => trivial
  have hOptional (e : Option Expr) : Tracks (fun _ => True) Machine.exit
      (execute.optional policy activate e) (optionalEvents policy activate calls e) :=
    (tracks_optional hCalls e).weaken fun _ _ => trivial
  match s with
  | expression e => exact (tracks_perform hCalls e).weaken fun _ _ => trivial
  | block body =>
      exact tracks_inScope _ (fun m =>
        tracks_executeAll hCalls .enters (fun _ => rfl) body none m fun hh => nomatch hh)
  | ifThen test yes =>
      refine .bind (hValue test) fun truth => ?_
      split
      · exact tracks_started (.inl rfl) (tracks_inScope _ (tracks_execute hCalls yes))
      · exact .pure _
  | ifElse test yes no =>
      refine .bind (hValue test) fun truth => ?_
      split
      · exact tracks_started (.inl rfl) (tracks_inScope _ (tracks_execute hCalls yes))
      · exact tracks_started (.inl rfl) (tracks_inScope _ (tracks_execute hCalls no))
  | whileLoop test body =>
      exact tracks_loop (tracks_turn policy (hValue test)
        (tracks_inScope _ (tracks_execute hCalls body))) policy.turns none
  | breakLoop => exact .pure _
  | continueLoop => exact .pure _
  | returnValue e =>
      intro m
      refine tracksAt_get ?_
      unfold events
      split
      · exact .silent rfl
      · exact (hOptional e).bind_silent (fun _ => .pure _) m
  | endRun e =>
      refine .bind (hOptional e) fun value m => ?_
      exact ⟨rfl, ⟨fun hh => (nomatch hh), trivial⟩, fun _ _ => trivial⟩
  | letVar name init =>
      exact .bind_silent (hOptional init) fun _ =>
        .bind_silent (tracks_updating _) fun _ => .pure _
  | constVar name init =>
      exact .bind_silent (hValue init) fun _ => .bind_silent (tracks_updating _) fun _ => .pure _
  | define kind name params body => exact .bind_silent (tracks_updating _) fun _ => .pure _
  | call name args =>
      intro m
      refine tracksAt_get ?_
      unfold events
      cases m.table.procedures[name]? with
      | none => exact (hValue (.call name args)).bind_silent (fun _ => .pure _) m
      | some procedure =>
          have hBody (values : List Float) := tracks_reading fun t => hCalls procedure values t
          refine Tracks.bind ((tracks_values hCalls args).weaken fun _ _ => trivial)
            (fun values => .bind_silent (hBody values) fun result => ?_) m
          exact .bind_silent (tracks_merging result.1 _) fun _ => .pure _

/-- The first statement may start with any event that the state admits. -/
theorem tracks_executeAll (hCalls : Activation.Tracks activate calls) (start : Event)
    (hStart : ∀ exit, start.exitAfter exit = exit) (body : List Statement) (value : Option Float)
    (m : Machine) (hLater : start.isLater = true → m.exit = none) :
    TracksAt (fun _ => True) Machine.exit (executeAll policy activate body value)
      (eventsAll policy activate calls start body m) m := by
  match body with
  | [] => exact .silent rfl
  | s :: rest =>
      refine .cons (hStart m.exit) hLater trivial ?_
      refine (tracks_execute hCalls s m).bind fun outcome m' _ => tracksAt_halted ?_
      by_cases hLeaves : outcome.flow ≠ .normal ∨ m'.run.halted = true
      · rw [if_pos hLeaves, if_pos hLeaves]
        exact .silent rfl
      · rw [if_neg hLeaves, if_neg hLeaves]
        refine tracks_executeAll hCalls .goesOn (fun _ => rfl) rest _ m' fun _ => ?_
        exact exit_eq_none (not_or.mp hLeaves).2

end

end Statement

namespace Subroutine

/-- The body runs on a scope of its own, but in the run of the caller, so its
exit is that of the caller. -/
theorem tracks_runBody {body : Execution Outcome} {log : Log Machine} (scope : Table)
    (h : Tracks (fun _ => True) Machine.exit body log) :
    Tracks (fun _ => True) Run.exit (activate.runBody scope body) fun run => log ⟨scope, run⟩ := by
  intro run
  obtain ⟨hExit, hOrderly, hAllowed⟩ := h ⟨scope, run⟩
  refine ⟨?_, hOrderly, hAllowed⟩
  rw [runBody_eq_handedBack]
  rcases hRun : runOn body ⟨scope, run⟩ with ⟨e | outcome, m⟩ <;> rw [hRun] at hExit <;> exact hExit

/-- The induction is on how deep calls may be nested. -/
theorem tracks_activate (policy : Policy) (depth : Nat) :
    Activation.Tracks (Subroutine.activate policy depth) (events policy depth) := by
  induction depth with
  | zero => exact fun s args t => .throw _
  | succ depth ih =>
      intro s args t run
      unfold Subroutine.activate events
      by_cases hCount : args.length ≠ s.params.length
      · rw [if_pos hCount, if_pos hCount]
        exact .silent rfl
      · rw [if_neg hCount, if_neg hCount]
        cases t.enterCall.assignAll (s.params.zip args) with
        | error e => exact .silent rfl
        | ok scope =>
            refine Tracks.bind_silent (tracks_runBody scope
              (Execution.tracks_started (.inl rfl) (Statement.tracks_execute ih (.block s.body))))
              (fun result => ?_) run
            obtain ⟨⟨value, flow⟩, final⟩ := result
            cases flow with
            | normal => exact .pure _
            | breaking => exact .throw _
            | continuing => exact .throw _
            | returning => exact .pure _

end Subroutine

/-- The depth to which calls may be nested does not matter. -/
theorem Policy.tracks_activation (policy : Policy) :
    Activation.Tracks policy.activation policy.calls :=
  Subroutine.tracks_activate policy policy.depth

namespace Program

/-- Induction over the statements of a program. All but the first start as later
ones, and only if the run has no exit. -/
theorem tracks_execute (policy : Policy) (p : Program) (start : Event)
    (hStart : ∀ exit, start.exitAfter exit = exit) (value : Option Float) (m : Machine)
    (hLater : start.isLater = true → m.exit = none) :
    TracksAt (fun _ => True) Machine.exit (p.execute policy value)
      (p.eventsFrom policy start m) m := by
  induction p generalizing start value m with
  | nil => exact .silent rfl
  | cons s rest ih =>
      refine .cons (hStart m.exit) hLater trivial ?_
      refine (s.tracks_execute policy.tracks_activation m).bind fun outcome m' _ =>
        Execution.tracksAt_get ?_
      obtain ⟨given, flow⟩ := outcome
      cases hExit : m'.run.exit with
      | some value => exact .silent rfl
      | none =>
          cases flow with
          | normal => exact ih .goesOn (fun _ => rfl) given m' fun _ => hExit
          | breaking => exact .silent rfl
          | continuing => exact .silent rfl
          | returning => exact ih .goesOn (fun _ => rfl) given m' fun _ => hExit

end Program

end Reckoner
