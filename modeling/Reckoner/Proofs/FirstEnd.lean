import Reckoner.Proofs.Halting
import Reckoner.Proofs.Reachable
import Mathlib.Tactic.Common

/-! The first `end` of a run. Outside expressions it decides the run: nothing
starts after it, nothing fails after it, and its value is returned. Inside a
function that an expression calls it does not: the statement under way is
completed first, and then the run returns the value of the last `end`. -/
namespace Reckoner

open Attempt

namespace Event

/-- An `end` outside expressions can only be the last event. -/
def PlainLast : List Event → Prop
  | [] => True
  | e :: rest => (e.isPlainEnd = true → rest = []) ∧ PlainLast rest

theorem Inner.not_plain {e : Event} (h : e.Inner) : ¬ e.isPlainEnd = true := by
  rw [Inner] at h
  simp [h]

/-- Events inside expressions may stand before it. -/
theorem plainLast_append {first second : List Event} (hFirst : ∀ e ∈ first, e.Inner)
    (hSecond : PlainLast second) : PlainLast (first ++ second) := by
  induction first with
  | nil => exact hSecond
  | cons e rest ih =>
      have hHead := (hFirst e List.mem_cons_self).not_plain
      have hRest := ih fun other hOther => hFirst other (List.mem_cons_of_mem e hOther)
      exact ⟨fun hPlain => absurd hPlain hHead, hRest⟩

/-- Nothing comes after an `end` outside expressions. -/
theorem PlainLast.eq_nil {before after : List Event} {e : Event}
    (h : PlainLast (before ++ e :: after)) (hPlain : e.isPlainEnd = true) : after = [] := by
  induction before with
  | nil => exact h.1 hPlain
  | cons _ rest ih => exact ih h.2

/-- After an `end` the run has an exit, and keeps one. -/
theorem exitAfterAll_ne_none {exit : Option (Option Float)} {events : List Event}
    (h : exit ≠ none ∨ ∃ e ∈ events, e.isPlainEnd = true) : exitAfterAll exit events ≠ none := by
  induction events generalizing exit with
  | nil => simpa [exitAfterAll] using h
  | cons e rest ih =>
      rw [exitAfterAll, List.foldl_cons]
      apply ih
      rcases h with hExit | ⟨plain, hMem, hPlain⟩
      · left
        cases e <;> simp [exitAfter, hExit]
      · rcases List.mem_cons.mp hMem with rfl | hMem
        · left
          cases plain <;> simp_all [exitAfter, isPlainEnd]
        · exact .inr ⟨plain, hMem, hPlain⟩

/-- Once the run has an exit, each further `end` replaces its value, and the
last one stays. -/
theorem exitAfterAll_some (value : Option Float) (events : List Event) :
    exitAfterAll (some value) events = some ((events.filterMap endValue?).getLastD value) := by
  induction events generalizing value with
  | nil => rfl
  | cons e rest ih =>
      cases e with
      | ends inside given =>
          have hLast : ((ends inside given :: rest).filterMap endValue?).getLastD value =
              (rest.filterMap endValue?).getLastD given := List.getLastD_cons
          rw [hLast]
          exact ih given
      | _ => exact ih value

end Event

namespace Attempt

variable {σ α β : Type} {exit : σ → Option (Option Float)} {post : α → Prop} {post' : β → Prop}

/-- From a state, a computation succeeds, or at least fails only because the
patience for one of its loops is used up. -/
def Succeeds (post : α → Prop) (x : Attempt σ α) (s : σ) : Prop :=
  (∃ a s', runOn x s = (.ok a, s') ∧ post a) ∨ ∃ s', runOn x s = (.error .endless, s')

/-- Success carries over if what follows succeeds on the value and the state
that were reached. -/
theorem Succeeds.bind {x : Attempt σ α} {f : α → Attempt σ β} {s : σ} (h : Succeeds post x s)
    (hRest : ∀ a s', runOn x s = (.ok a, s') → post a → Succeeds post' (f a) s') :
    Succeeds post' (x >>= f) s := by
  rcases h with ⟨a, s', hRun, ha⟩ | ⟨s', hRun⟩
  · rcases hRest a s' hRun ha with ⟨b, final, hRest, hb⟩ | ⟨final, hRest⟩
    · exact .inl ⟨b, final, by rw [runOn_bind, hRun]; exact hRest, hb⟩
    · exact .inr ⟨final, by rw [runOn_bind, hRun]; exact hRest⟩
  · exact .inr ⟨s', by rw [runOn_bind, hRun]⟩

/-- If a run ends in this computation, outside expressions, then this is the
last thing that happens in it, and the computation succeeds. -/
structure ConcludesAt (post : α → Prop) (x : Attempt σ α) (events : List Event) (s : σ) :
    Prop where
  last : Event.PlainLast events
  succeeds : ∀ e ∈ events, e.isPlainEnd = true → Succeeds post x s

namespace ConcludesAt

/-- Where a run can end only inside expressions there is nothing to show. -/
theorem of_inner {x : Attempt σ α} {events : List Event} {s : σ} (h : ∀ e ∈ events, e.Inner) :
    ConcludesAt post x events s where
  last := by
    have hLast := Event.plainLast_append h (show Event.PlainLast [] from trivial)
    rwa [List.append_nil] at hLast
  succeeds e he hPlain := absurd hPlain (h e he).not_plain

theorem silent {x : Attempt σ α} {s : σ} : ConcludesAt post x [] s :=
  ⟨trivial, fun _ he => nomatch he⟩

/-- An event first that is no `end` outside expressions. -/
theorem cons {x : Attempt σ α} {events : List Event} {s : σ} {e : Event} (he : e.Inner)
    (h : ConcludesAt post x events s) : ConcludesAt post x (e :: events) s where
  last := ⟨fun hPlain => absurd hPlain he.not_plain, h.last⟩
  succeeds other hOther hPlain := by
    rcases List.mem_cons.mp hOther with rfl | hOther
    · exact absurd hPlain he.not_plain
    · exact h.succeeds other hOther hPlain

/-- A computation in which the run does not end, and then one in which it may. -/
theorem bind_of_inner {x : Attempt σ α} {f : α → Attempt σ β} {log : Log σ} {next : α → Log σ}
    {s : σ} (hFirst : ∀ e ∈ log s, e.Inner)
    (hRest : ∀ a s', runOn x s = (.ok a, s') → ConcludesAt post' (f a) (next a s') s') :
    ConcludesAt post' (x >>= f) (log.andThen x next s) s := by
  rw [Log.andThen]
  rcases hRun : runOn x s with ⟨e | a, s'⟩
  · rw [List.append_nil]
    exact .of_inner hFirst
  · obtain ⟨hLast, hSucceeds⟩ := hRest a s' hRun
    refine ⟨Event.plainLast_append hFirst hLast, fun e he hPlain => ?_⟩
    rcases List.mem_append.mp he with he | he
    · exact absurd hPlain (hFirst e he).not_plain
    · rcases hSucceeds e he hPlain with ⟨b, final, hRest, hb⟩ | ⟨final, hRest⟩
      · exact .inl ⟨b, final, by rw [runOn_bind, hRun]; exact hRest, hb⟩
      · exact .inr ⟨final, by rw [runOn_bind, hRun]; exact hRest⟩

/-- What follows has no events of its own and cannot fail. -/
theorem bind_silent {x : Attempt σ α} {f : α → Attempt σ β} {events : List Event} {s : σ}
    (hFirst : ConcludesAt post x events s)
    (hRest : ∀ a s', runOn x s = (.ok a, s') → post a → Succeeds post' (f a) s') :
    ConcludesAt post' (x >>= f) events s where
  last := hFirst.last
  succeeds e he hPlain := (hFirst.succeeds e he hPlain).bind hRest

/-- If the run may end in both, what follows must stop as soon as the run has an
exit. -/
theorem bind {allowed : Event → Prop} {x : Attempt σ α} {f : α → Attempt σ β} {log : Log σ}
    {next : α → Log σ} {s : σ} (hFirst : ConcludesAt post x (log s) s)
    (hTracks : TracksAt allowed exit x (log s) s)
    (hRest : ∀ a s', runOn x s = (.ok a, s') → ConcludesAt post' (f a) (next a s') s')
    (hDone : ∀ a s', runOn x s = (.ok a, s') → exit s' ≠ none → post a →
      next a s' = [] ∧ Succeeds post' (f a) s') :
    ConcludesAt post' (x >>= f) (log.andThen x next s) s := by
  by_cases hPlain : ∃ e ∈ log s, e.isPlainEnd = true
  · obtain ⟨plain, hMem, hPlain⟩ := hPlain
    have hExit : exit (runOn x s).2 ≠ none := by
      rw [hTracks.exit_eq]
      exact Event.exitAfterAll_ne_none (.inr ⟨plain, hMem, hPlain⟩)
    have hSame : log.andThen x next s = log s := by
      rw [Log.andThen]
      rcases hFirst.succeeds plain hMem hPlain with ⟨a, s', hRun, ha⟩ | ⟨s', hRun⟩
      · rw [hRun] at hExit ⊢
        simp [(hDone a s' hRun hExit ha).1]
      · simp [hRun]
    rw [hSame]
    refine hFirst.bind_silent fun a s' hRun ha => ?_
    rw [hRun] at hExit
    exact (hDone a s' hRun hExit ha).2
  · refine bind_of_inner (fun e he => ?_) hRest
    exact Bool.eq_false_iff.mpr fun hh => hPlain ⟨e, he, hh⟩

end ConcludesAt

end Attempt

/-- How control goes on after the run has ended: it leaves bodies, and no loop
takes it for a `break` or a `continue` of its own. -/
def Outcome.Unwinds (outcome : Outcome) : Prop := outcome.flow = .normal ∨ outcome.flow = .returning

/-- Subroutines in which the run ends, outside expressions, do nothing more. -/
def Activation.Concludes (activate : Activation) (calls : Activation.Log) : Prop :=
  ∀ s args t run, t.Sound → ConcludesAt (fun _ => True) (activate s args t) (calls s args t run) run

namespace Execution

variable {α : Type} {post : α → Prop}

/-- A run with an exit has ended. -/
theorem halted_of_exit {m : Machine} (h : m.exit ≠ none) : m.run.halted = true := by
  simpa [Machine.exit, Run.halted, Option.isSome_iff_ne_none] using h

/-- A scope is left by a merge, and on a sound table a merge succeeds. -/
theorem concludes_inScope {x : Execution α} {events : List Event} {m : Machine}
    (hSound : m.table.Sound) (shadows : List String) (h : ConcludesAt post x events m) :
    ConcludesAt post (inScope shadows x) events m where
  last := h.last
  succeeds e he hPlain := by
    rcases h.succeeds e he hPlain with ⟨a, inner, hRun, ha⟩ | ⟨inner, hRun⟩
    · left
      refine ⟨a, ⟨(m.table.merge inner.table shadows).2, inner.run⟩, ?_, ha⟩
      rw [runOn_inScope, hRun, leaving, Table.merge_isOk hSound]
      rfl
    · right
      refine ⟨⟨m.table, inner.run⟩, ?_⟩
      rw [runOn_inScope, hRun, leaving]

theorem reading_sound {f : Table → Evaluation α} {m m' : Machine} {a : α} (hSound : m.table.Sound)
    (h : runOn (reading f) m = (.ok a, m')) : m'.table.Sound := by
  obtain ⟨run, _, rfl⟩ := reading_ok h
  exact hSound

/-- An evaluation succeeds on the machine if it does on its table and its run. -/
theorem succeeds_reading {f : Table → Evaluation α} {m : Machine}
    (h : Succeeds post (f m.table) m.run) : Succeeds post (reading f) m := by
  rcases h with ⟨a, run, hRun, ha⟩ | ⟨run, hRun⟩
  · exact .inl ⟨a, { m with run := run }, by rw [runOn_reading, hRun], ha⟩
  · exact .inr ⟨{ m with run := run }, by rw [runOn_reading, hRun]⟩

/-- The events of an evaluation are those on the table that it reads. -/
theorem concludes_reading {f : Table → Evaluation α} {log : Table → Log Run} {m : Machine}
    (h : ConcludesAt post (f m.table) (log m.table m.run) m.run) :
    ConcludesAt post (reading f) (Log.reading log m) m :=
  ⟨h.last, fun e he hPlain => succeeds_reading (h.succeeds e he hPlain)⟩

/-- Copying back does not fail on a sound table. -/
theorem succeeds_merging {m : Machine} (hSound : m.table.Sound) (scope : Table)
    (shadows : List String) : Succeeds (fun _ => True) (merging scope shadows) m := by
  left
  refine ⟨(), { m with table := (m.table.merge scope shadows).2 }, ?_, trivial⟩
  rw [runOn_merging, Table.merge_isOk hSound]

theorem concludesAt_get {f : Machine → Execution α} {events : List Event} {m : Machine}
    (h : ConcludesAt post (f m) events m) : ConcludesAt post (get >>= f) events m :=
  ⟨h.last, h.succeeds⟩

theorem concludesAt_halted {f : Bool → Execution α} {events : List Event} {m : Machine}
    (h : ConcludesAt post (f m.run.halted) events m) : ConcludesAt post (halted >>= f) events m :=
  ⟨h.last, h.succeeds⟩

theorem succeeds_get {f : Machine → Execution α} {m : Machine} (h : Succeeds post (f m) m) :
    Succeeds post (get >>= f) m := h

theorem succeeds_halted {f : Bool → Execution α} {m : Machine}
    (h : Succeeds post (f m.run.halted) m) : Succeeds post (halted >>= f) m := h

theorem succeeds_pure {a : α} (ha : post a) (m : Machine) :
    Succeeds post (pure a : Execution α) m := .inl ⟨a, m, rfl, ha⟩

/-- The test can end the run only inside an expression, so it is the body that
concludes. Its outcome then unwinds, and the turn counts as taken. -/
theorem concludes_turn (policy : Policy) {test : Table → Evaluation Float}
    {testLog : Table → Log Run} (hTest : ∀ t, Tracks Event.Inner Run.exit (test t) (testLog t))
    {shadows : List String} {body : Execution Outcome} {bodyLog : Log Machine}
    (hBody : ∀ m, m.table.Sound → ConcludesAt Outcome.Unwinds body (bodyLog m) m) {m : Machine}
    (hSound : m.table.Sound) :
    ConcludesAt (fun taken => ∃ outcome, taken = some outcome ∧ outcome.Unwinds)
      (turn policy (reading test) (inScope shadows body))
      (Log.turn policy (reading test) (Log.reading testLog) bodyLog m) m := by
  refine concludesAt_halted ?_
  unfold Log.turn
  by_cases hHalted : m.run.halted = true
  · rw [if_pos hHalted, if_pos hHalted]
    exact .silent
  · rw [if_neg hHalted, if_neg hHalted]
    refine .cons rfl (.bind_of_inner (hTest m.table m.run).allowed fun truth tested hTested => ?_)
    obtain ⟨run, _, rfl⟩ := reading_ok hTested
    split
    · refine .bind_of_inner (fun _ he => nomatch he) fun _ started hCounted => ?_
      obtain ⟨rfl, _⟩ := tick_ok hCounted
      have hStarted : (counted { m with run := run }).table.Sound := hSound
      refine .cons rfl ((concludes_inScope hStarted shadows (hBody _ hStarted)).bind_silent ?_)
      intro outcome after _ hUnwinds
      exact succeeds_pure ⟨outcome, rfl, hUnwinds⟩ after
    · exact .silent

/-- A loop on a machine whose run has ended does nothing, unless there is no
patience left even for that. -/
theorem loop_halted {policy : Policy} {test : Execution Float} {body : Execution Outcome}
    {testLog bodyLog : Log Machine} {m : Machine} (hHalted : m.run.halted = true) (turns : Nat)
    (value : Option Float) :
    Log.loop (turn policy test body) (Log.turn policy test testLog bodyLog) turns m = [] ∧
      Succeeds Outcome.Unwinds (loop (turn policy test body) turns value) m := by
  have hDeclines : runOn (turn policy test body) m = (.ok none, m) := by
    simp only [turn, halted, runOn_bind, runOn_get, runOn_pure, hHalted, if_true]
  cases turns with
  | zero => exact ⟨rfl, .inr ⟨m, rfl⟩⟩
  | succ turns =>
      refine ⟨?_, .inl ⟨⟨value, .normal⟩, m, ?_, .inl rfl⟩⟩
      · simp [Log.loop, Log.andThen, Log.turn, hHalted, hDeclines, Log.silent]
      · rw [loop, runOn_bind, hDeclines]
        rfl

/-- Induction over the turns that are left. After a turn in which the run ended,
the next one asks and finds this out. -/
theorem concludes_loop (policy : Policy) {test : Table → Evaluation Float}
    {testLog : Table → Log Run} (hTest : ∀ t, Tracks Event.Inner Run.exit (test t) (testLog t))
    {shadows : List String} {body : Execution Outcome} {bodyLog : Log Machine}
    (hTracks : Tracks (fun _ => True) Machine.exit body bodyLog)
    (hBody : ∀ m, m.table.Sound → ConcludesAt Outcome.Unwinds body (bodyLog m) m) {m : Machine}
    (hSound : m.table.Sound) (turns : Nat) (value : Option Float) :
    ConcludesAt Outcome.Unwinds
      (loop (turn policy (reading test) (inScope shadows body)) turns value)
      (Log.loop (turn policy (reading test) (inScope shadows body))
        (Log.turn policy (reading test) (Log.reading testLog) bodyLog) turns m) m := by
  induction turns generalizing m value with
  | zero => exact .silent
  | succ turns ih =>
      have hTurn := tracks_turn policy
        ((tracks_reading hTest).weaken fun _ _ => trivial) (tracks_inScope shadows hTracks)
      refine (concludes_turn policy hTest hBody hSound).bind (hTurn m) ?_ ?_
      · intro taken after hTaken
        have hAfter := turn_sound hSound hTaken
        cases taken with
        | none => exact .silent
        | some outcome =>
            obtain ⟨given, flow⟩ := outcome
            cases flow with
            | normal => exact ih hAfter _
            | breaking => exact .silent
            | continuing => exact ih hAfter _
            | returning => exact .silent
      · rintro _ after _ hExit ⟨⟨given, flow⟩, rfl, hUnwinds⟩
        rcases hUnwinds with rfl | rfl
        · exact loop_halted (halted_of_exit hExit) turns _
        · exact ⟨rfl, succeeds_pure (.inr rfl) after⟩

end Execution

namespace Statement

open Execution

variable {policy : Policy} {activate : Activation} {calls : Activation.Log}

mutual

/-- The induction is on the statement. The run ends in an `end` itself, in a
body, or in a procedure that is called; elsewhere it can only end inside an
expression. -/
theorem concludes_execute (hTracks : Activation.Tracks activate calls)
    (hCalls : Activation.Concludes activate calls) (s : Statement) (m : Machine)
    (hSound : m.table.Sound) :
    ConcludesAt Outcome.Unwinds (s.execute policy activate)
      (s.events policy activate calls m) m := by
  match s with
  | expression e => exact .of_inner (tracks_perform hTracks e m).allowed
  | block body =>
      exact concludes_inScope hSound _
        (concludes_executeAll hTracks hCalls .enters rfl body none m hSound)
  | ifThen test yes =>
      refine .bind_of_inner (tracks_value hTracks test m).allowed fun truth tested hTested => ?_
      have hAfter := reading_sound hSound hTested
      split
      · exact .cons rfl (concludes_inScope hAfter _ (concludes_execute hTracks hCalls yes _ hAfter))
      · exact .silent
  | ifElse test yes no =>
      refine .bind_of_inner (tracks_value hTracks test m).allowed fun truth tested hTested => ?_
      have hAfter := reading_sound hSound hTested
      split
      · exact .cons rfl (concludes_inScope hAfter _ (concludes_execute hTracks hCalls yes _ hAfter))
      · exact .cons rfl (concludes_inScope hAfter _ (concludes_execute hTracks hCalls no _ hAfter))
  | whileLoop test body =>
      exact concludes_loop policy (fun t => test.tracks_evaluate hTracks t)
        (tracks_execute hTracks body) (concludes_execute hTracks hCalls body) hSound
        policy.turns none
  | breakLoop => exact .silent
  | continueLoop => exact .silent
  | returnValue e =>
      refine .of_inner fun event he => ?_
      unfold events at he
      split at he
      · cases he
      · exact (tracks_optional hTracks e m).allowed event he
  -- The only event outside expressions that ends the run, and it is the last one here.
  | endRun e =>
      refine .bind_of_inner (tracks_optional hTracks e m).allowed fun value m' _ => ?_
      exact ⟨⟨fun _ => rfl, trivial⟩, fun _ _ _ => .inl ⟨⟨value, .returning⟩, _, rfl, .inr rfl⟩⟩
  | letVar name init => exact .of_inner (tracks_optional hTracks init m).allowed
  | constVar name init => exact .of_inner (tracks_value hTracks init m).allowed
  | define kind name params body => exact .silent
  | call name args =>
      refine concludesAt_get ?_
      unfold events
      cases m.table.procedures[name]? with
      | none => exact .of_inner (tracks_value hTracks (.call name args) m).allowed
      | some procedure =>
          refine .bind_of_inner (tracks_values hTracks args m).allowed fun values m' hArgs => ?_
          have hBefore := reading_sound hSound hArgs
          have hCall := hCalls procedure values m'.table m'.run hBefore
          refine (concludes_reading hCall).bind_silent ?_
          intro result after hBody _
          have hAfter := reading_sound hBefore hBody
          refine (succeeds_merging hAfter result.1 _).bind fun _ final _ _ => ?_
          exact succeeds_pure (.inl rfl) final

/-- After a statement in which the run ended, the others are not started. -/
theorem concludes_executeAll (hTracks : Activation.Tracks activate calls)
    (hCalls : Activation.Concludes activate calls) (start : Event) (hStart : start.Inner)
    (body : List Statement) (value : Option Float) (m : Machine) (hSound : m.table.Sound) :
    ConcludesAt Outcome.Unwinds (executeAll policy activate body value)
      (eventsAll policy activate calls start body m) m := by
  match body with
  | [] => exact .silent
  | s :: rest =>
      refine .cons hStart ((concludes_execute hTracks hCalls s m hSound).bind
        (tracks_execute hTracks s m) ?_ ?_)
      · intro outcome m' hRun
        have hAfter := (keeps Table.stable_sound policy activate s).ok hSound hRun
        refine concludesAt_halted ?_
        by_cases hLeaves : outcome.flow ≠ .normal ∨ m'.run.halted = true
        · rw [if_pos hLeaves, if_pos hLeaves]
          exact .silent
        · rw [if_neg hLeaves, if_neg hLeaves]
          exact concludes_executeAll hTracks hCalls .goesOn rfl rest _ m' hAfter
      · intro outcome m' _ hExit hUnwinds
        have hLeaves : outcome.flow ≠ .normal ∨ m'.run.halted = true := .inr (halted_of_exit hExit)
        refine ⟨if_pos hLeaves, succeeds_halted ?_⟩
        rw [if_pos hLeaves]
        exact .inl ⟨_, m', rfl, hUnwinds⟩

end

end Statement

namespace Subroutine

/-- The body of a subroutine is the body, seen from its caller. -/
theorem concludes_runBody {body : Execution Outcome} {events : List Event} {scope : Table}
    {run : Run} (h : ConcludesAt Outcome.Unwinds body events ⟨scope, run⟩) :
    ConcludesAt (fun result => result.1.Unwinds) (activate.runBody scope body) events run where
  last := h.last
  succeeds e he hPlain := by
    rcases h.succeeds e he hPlain with ⟨outcome, m, hRun, hUnwinds⟩ | ⟨m, hRun⟩
    · exact .inl ⟨(outcome, m.table), m.run, by rw [runBody_eq_handedBack, hRun]; rfl, hUnwinds⟩
    · exact .inr ⟨m.run, by rw [runBody_eq_handedBack, hRun]; rfl⟩

/-- The induction is on how deep calls may be nested. -/
theorem concludes_activate (policy : Policy) (depth : Nat) :
    Activation.Concludes (Subroutine.activate policy depth) (events policy depth) := by
  induction depth with
  | zero => exact fun s args t run _ => .silent
  | succ depth ih =>
      intro s args t run hSound
      unfold Subroutine.activate events
      by_cases hCount : args.length ≠ s.params.length
      · rw [if_pos hCount, if_pos hCount]
        exact .silent
      · rw [if_neg hCount, if_neg hCount]
        cases hScope : t.enterCall.assignAll (s.params.zip args) with
        | error e => exact .silent
        | ok scope =>
            have hEntered : t.enterCall.Sound := Table.sound_of_vars_eq rfl hSound
            have hInner : scope.Sound := Table.assignAll_sound hEntered hScope
            refine .cons rfl ((concludes_runBody
              (Statement.concludes_execute (tracks_activate policy depth) ih (.block s.body)
                ⟨scope, run⟩ hInner)).bind_silent ?_)
            rintro ⟨⟨value, flow⟩, final⟩ after _ (rfl | rfl)
            · exact .inl ⟨_, after, rfl, trivial⟩
            · exact .inl ⟨_, after, rfl, trivial⟩

end Subroutine

theorem Policy.concludes_activation (policy : Policy) :
    Activation.Concludes policy.activation policy.calls :=
  Subroutine.concludes_activate policy policy.depth

namespace Program

open Execution

/-- Induction over the statements of a program, which stops as soon as the run
has an exit. -/
theorem concludes_execute (policy : Policy) (p : Program) (start : Event) (hStart : start.Inner)
    (value : Option Float) (m : Machine) (hSound : m.table.Sound) :
    ConcludesAt (fun _ => True) (p.execute policy value) (p.eventsFrom policy start m) m := by
  induction p generalizing start value m with
  | nil => exact .silent
  | cons s rest ih =>
      have hTracks := policy.tracks_activation
      refine .cons hStart ((s.concludes_execute hTracks policy.concludes_activation m hSound).bind
        (s.tracks_execute hTracks m) ?_ ?_)
      · intro outcome m' hRun
        have hAfter := (s.keeps Table.stable_sound policy policy.activation).ok hSound hRun
        refine concludesAt_get ?_
        obtain ⟨given, flow⟩ := outcome
        cases m'.run.exit with
        | some value => exact .silent
        | none =>
            cases flow with
            | normal => exact ih .goesOn rfl given m' hAfter
            | breaking => exact .silent
            | continuing => exact .silent
            | returning => exact ih .goesOn rfl given m' hAfter
      · intro outcome m' _ hExit _
        obtain ⟨value, hValue⟩ := Option.ne_none_iff_exists'.mp hExit
        rw [Machine.exit] at hValue
        refine ⟨by rw [hValue], succeeds_get ?_⟩
        rw [hValue]
        exact succeeds_pure trivial m'

/-- A program in which the run ends gives the value that the run has kept. -/
theorem execute_exit {policy : Policy} {p : Program} {value w : Option Float} {m m' : Machine}
    {given : Option Float} (hStart : m.exit = none)
    (h : runOn (p.execute policy value) m = (.ok w, m')) (hExit : m'.exit = some given) :
    w = given := by
  induction p generalizing value m with
  | nil =>
      obtain ⟨-, rfl⟩ := Prod.mk.inj h
      rw [hStart] at hExit
      cases hExit
  | cons s rest ih =>
      obtain ⟨⟨result, flow⟩, middle, -, hRest⟩ := bind_ok_iff.mp h
      obtain ⟨seen, same, hSeen, hRest⟩ := bind_ok_iff.mp hRest
      cases hSeen
      cases hMiddle : middle.run.exit with
      | some kept =>
          rw [hMiddle] at hRest
          obtain ⟨hValue, rfl⟩ := Prod.mk.inj hRest
          rw [Machine.exit, hMiddle] at hExit
          exact (Except.ok.inj hValue).symm.trans (Option.some.inj hExit)
      | none =>
          rw [hMiddle] at hRest
          cases flow with
          | normal => exact ih hMiddle hRest
          | breaking => cases hRest
          | continuing => cases hRest
          | returning => exact ih hMiddle hRest

end Program

/-- An `end` in the course of a run. After it no list of statements and no loop
goes on; at most the statement under way is completed, and if that succeeds, the
result is the value of the last `end`. If the `end` is not inside an expression,
nothing is left to complete: no statement starts after it, and its value is the
result. -/
theorem end_decides (policy : Policy) (p : Program) (m : Machine) (hReachable : m.table.Reachable)
    (hStart : m.run.exit = none) (hEndless : (p.run policy m).1 ≠ .error .endless)
    {before after : List Event} {inside : Bool} {value : Option Float}
    (hEvents : p.events policy m = before ++ .ends inside value :: after) :
    (∀ e ∈ after, e.isLater = false) ∧
    (∀ w, (p.run policy m).1 = .ok w → w = (after.filterMap Event.endValue?).getLastD value) ∧
    (inside = false → after = [] ∧ (p.run policy m).1 = .ok value) := by
  have hEnters (h : Event.enters.isLater = true) : m.exit = none := absurd h (by decide)
  have hTracks := p.tracks_execute policy .enters (fun _ => rfl) none m hEnters
  have hConcludes := p.concludes_execute policy .enters rfl none m hReachable.sound
  rw [← Program.events, hEvents] at hTracks hConcludes
  have hExit : (p.run policy m).2.exit =
      some ((after.filterMap Event.endValue?).getLastD value) := by
    refine hTracks.exit_eq.trans ?_
    rw [Event.exitAfterAll_append]
    exact Event.exitAfterAll_some value after
  have hResult (w : Option Float) (hw : (p.run policy m).1 = .ok w) :
      w = (after.filterMap Event.endValue?).getLastD value :=
    Program.execute_exit hStart (Prod.ext hw rfl) hExit
  refine ⟨?_, hResult, fun hInside => ?_⟩
  · have hRest := (Event.orderly_append.mp hTracks.orderly).2.2
    exact hRest.not_later (Option.some_ne_none value)
  · subst hInside
    have hNil : after = [] := hConcludes.last.eq_nil rfl
    subst hNil
    refine ⟨rfl, ?_⟩
    rcases hConcludes.succeeds _ List.mem_append_cons_self rfl with ⟨w, m', hRun, _⟩ | ⟨m', hRun⟩
    · have hOk : (p.run policy m).1 = .ok w := congrArg Prod.fst hRun
      rw [hOk, hResult w hOk]
      rfl
    · exact absurd (congrArg Prod.fst hRun) hEndless

/-- Counts `i` up in a loop and hands it to `halt(i)`, a procedure that ends the
run as soon as its argument is 2. The division by zero is never reached. -/
def halting : Program :=
  [.define .procedure "halt" ["x"]
     [.ifThen (.binary .eq (.name "x") (.number 2 "2")) (.block [.endRun (some (.name "x"))])],
   .letVar "i" none,
   .whileLoop (.number 1 "1") (.block
     [.expression (.binary .assign (.name "i") (.binary .add (.name "i") (.number 1 "1"))),
      .call "halt" [.name "i"]]),
   .expression (.binary .div (.number 1 "1") (.number 0 "0"))]

/-- Declares `stop()`, which ends the run with 9, and `quit()`, which ends it
with 8, and then gives an expression its value. -/
def stopping (e : Expr) : Program :=
  [.define .function "stop" [] [.endRun (some (.number 9 "9"))],
   .define .function "quit" [] [.endRun (some (.number 8 "8"))],
   .expression e]

/-- The second turn of the loop is the last thing that goes on. -/
theorem end_decides_halting :
    let policy := Policy.usual none fun _ => 0.5
    let start : Machine := ⟨Table.empty, {}⟩
    let before : List Event :=
      [.enters, .goesOn, .goesOn, .turns, .begins, .enters, .goesOn, .enters, .enters,
       .turns, .begins, .enters, .goesOn, .enters, .enters, .enters, .enters]
    start.table.Reachable ∧ (halting.run policy start).1 ≠ .error .endless ∧
    halting.events policy start = before ++ [.ends false (some 2)] ∧
    (halting.run policy start).1 = .ok (some 2) := by
  intro policy start before
  have hEndless : (halting.run policy start).1 ≠ .error .endless := by decide +kernel
  have hEvents : halting.events policy start = before ++ [.ends false (some 2)] := by
    decide +kernel
  refine ⟨.empty, hEndless, hEvents, ?_⟩
  exact ((end_decides policy halting start .empty rfl hEndless hEvents).2.2 rfl).2

/-- What it would mean for the first `end` of a run to decide it, wherever this
`end` stands: no statement starts after it, and its value is the result. -/
def FirstEndDecides (policy : Policy) (p : Program) (m : Machine) : Prop :=
  ∀ before inside value after, p.events policy m = before ++ .ends inside value :: after →
    (∀ e ∈ before, e.endValue? = none) →
    (∀ e ∈ after, e.isStart = false) ∧ (p.run policy m).1 = .ok value

/-- Inside an expression the first `end` does not decide. In `stop() + 1 / 0` the
division fails after it; in `stop() + quit()` the body of `quit` starts after it,
and the value that `quit` gives is the result. -/
theorem not_firstEndDecides :
    let policy := Policy.usual none fun _ => 0.5
    let start : Machine := ⟨Table.empty, {}⟩
    let stop : Expr := .call "stop" []
    ¬ FirstEndDecides policy
      (stopping (.binary .add stop (.binary .div (.number 1 "1") (.number 0 "0")))) start ∧
    ¬ FirstEndDecides policy (stopping (.binary .add stop (.call "quit" []))) start := by
  intro policy start stop
  constructor
  · intro hDecides
    have hEvents : (stopping (.binary .add stop
        (.binary .div (.number 1 "1") (.number 0 "0")))).events policy start =
        [.enters, .goesOn, .goesOn, .enters, .enters] ++ [.ends true (some 9)] := by
      decide +kernel
    have hResult := (hDecides _ _ _ _ hEvents (by decide)).2
    revert hResult
    decide +kernel
  · intro hDecides
    have hEvents : (stopping (.binary .add stop (.call "quit" []))).events policy start =
        [.enters, .goesOn, .goesOn, .enters, .enters] ++
          .ends true (some 9) :: [.enters, .enters, .ends true (some 8)] := by
      decide +kernel
    have hStarts := (hDecides _ _ _ _ hEvents (by decide)).1
    revert hStarts
    decide

end Reckoner
