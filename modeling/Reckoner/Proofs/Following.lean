import Reckoner.Proofs.Stops

/-! Runs with a limit beside runs without one. The limited run follows the other
step by step until it is stopped, and it is stopped only after more turns than
the limit allows. The relation is kept by sequencing, so it holds of a program
because it holds of each step that counts a turn. -/
namespace Reckoner

namespace Policy

/-- The same conditions without a limit, but with some patience. -/
def freed (q : Policy) (patience : Nat) : Policy := { q with limit := none, patience := patience }

/-- The failure with which a run is stopped. -/
def stop (q : Policy) : Failure :=
  match q.limit with
  | some limit => .run (.iterationsExceeded limit)
  | none => .endless

/-- Whether a run may have begun that many turns. -/
def Allows (q : Policy) (steps : Nat) : Prop := ∀ limit ∈ q.limit, (steps : Int) ≤ limit

/-- Whether so many turns are more than the limit, if there is one. Without a
limit this holds of every number, as does `Allows`. -/
def Exceeds (q : Policy) (steps : Nat) : Prop := ∀ limit ∈ q.limit, limit < (steps : Int)

/-- A loop can take enough turns to exceed the limit by itself. -/
theorem exceeds_turns (q : Policy) (steps : Nat) : q.Exceeds (steps + q.turns) := by
  intro limit hLimit
  rw [Option.mem_def] at hLimit
  simp only [turns, hLimit]
  omega

/-- Where a loop of a limited run has no turns left, the limit was exceeded
before, so it is only without a limit that patience decides. -/
theorem stop_of_exceeds {q : Policy} {steps : Nat} (hAllows : q.Allows steps)
    (hExceeds : q.Exceeds steps) : q.stop = .endless := by
  unfold stop
  cases hLimit : q.limit with
  | none => rfl
  | some limit =>
      have hLow := hAllows limit hLimit
      have hHigh := hExceeds limit hLimit
      omega

end Policy

namespace Attempt

variable {σ α β : Type} {q : Policy} {steps : σ → Nat}

/-- How the result of a limited run compares with that of the run it follows. -/
inductive Agrees (q : Policy) (steps : σ → Nat) (r r' : Except Failure α × σ) : Prop where
  | same (result : r = r') (genuine : isStopped r.1 = false) (within : q.Allows (steps r.2))
  | stopped (failure : r.1 = .error q.stop) (beyond : q.Exceeds (steps r.2))
      (further : steps r.2 ≤ steps r'.2)

/-- From every state that the limit allows, `x` does what `y` does or is stopped
on the way. Nothing is said about states beyond the limit. -/
structure Follows (q : Policy) (steps : σ → Nat) (x y : Attempt σ α) : Prop where
  advances : ∀ s, steps s ≤ steps (runOn y s).2
  agrees : ∀ s, q.Allows (steps s) → Agrees q steps (runOn x s) (runOn y s)

/-- What comes after a computation does not take turns back. -/
theorem steps_le_bind (y : Attempt σ α) {g : α → Attempt σ β}
    (hRest : ∀ a s, steps s ≤ steps (runOn (g a) s).2) (s : σ) :
    steps (runOn y s).2 ≤ steps (runOn (y >>= g) s).2 := by
  rw [runOn_bind]
  rcases runOn y s with ⟨e | a, s'⟩
  · exact Nat.le_refl _
  · exact hRest a s'

/-- Only a computation that was not stopped is continued, and then both runs go
on from one state. -/
theorem Agrees.bind {x y : Attempt σ α} {f g : α → Attempt σ β} {s : σ}
    (hFirst : Agrees q steps (runOn x s) (runOn y s))
    (hRest : ∀ a s', runOn y s = (.ok a, s') → q.Allows (steps s') →
      Agrees q steps (runOn (f a) s') (runOn (g a) s'))
    (hAdvances : steps (runOn y s).2 ≤ steps (runOn (y >>= g) s).2) :
    Agrees q steps (runOn (x >>= f) s) (runOn (y >>= g) s) := by
  cases hFirst with
  | same hSame hGenuine hWithin =>
      rw [runOn_bind, runOn_bind]
      rcases hRun : runOn x s with ⟨e | a, s'⟩ <;>
        rw [hRun] at hSame hGenuine hWithin <;> rw [← hSame]
      · exact .same rfl hGenuine hWithin
      · exact hRest a s' hSame.symm hWithin
  | stopped hStop hBeyond hFurther =>
      -- `y` goes on alone, and what it does from here only adds turns.
      have hStill := Nat.le_trans hFurther hAdvances
      rw [runOn_bind x]
      rcases hRun : runOn x s with ⟨e | a, s'⟩ <;> rw [hRun] at hStop hBeyond hStill
      · cases hStop
        exact .stopped rfl hBeyond hStill
      · cases hStop

/-- A result may be passed on in another form, if its count and its failure are
passed on as they are. -/
theorem Agrees.lift {τ : Type} {steps' : τ → Nat} {r r' : Except Failure α × σ}
    (h : Agrees q steps r r') (pass : Except Failure α × σ → Except Failure β × τ)
    (hSteps : ∀ r, steps' (pass r).2 = steps r.2)
    (hError : ∀ e s, (pass (.error e, s)).1 = .error e)
    (hOk : ∀ a s, isStopped (pass (.ok a, s)).1 = false) :
    Agrees q steps' (pass r) (pass r') := by
  cases h with
  | same hSame hGenuine hWithin =>
      rw [← hSame]
      refine .same rfl ?_ (by rwa [hSteps])
      rcases r with ⟨e | a, s⟩
      · rwa [hError]
      · exact hOk a s
  | stopped hStop hBeyond hFurther =>
      rcases r with ⟨e | a, s⟩
      · cases hStop
        exact .stopped (hError _ s) (by rwa [hSteps]) (by rwa [hSteps, hSteps])
      · cases hStop

namespace Follows

/-- Sequencing keeps the relation. This is the one place where a stopped run and
one that goes on part. -/
theorem bind {x y : Attempt σ α} {f g : α → Attempt σ β} (hFirst : Follows q steps x y)
    (hRest : ∀ a, Follows q steps (f a) (g a)) : Follows q steps (x >>= f) (y >>= g) where
  advances s := Nat.le_trans (hFirst.advances s)
    (steps_le_bind y (fun a => (hRest a).advances) s)
  agrees s hs := (hFirst.agrees s hs).bind (fun a s' _ => (hRest a).agrees s')
    (steps_le_bind y (fun a => (hRest a).advances) s)

/-- A step that begins no turn follows itself under every limit. -/
theorem of_inert {x : Attempt σ α} (h : Inert steps x) : Follows q steps x x where
  advances s := Nat.le_of_eq (h s).1.symm
  agrees s hs := by
    obtain ⟨hSteps, hOrdinary⟩ := h s
    refine .same rfl (isStopped_of_ordinary hOrdinary) ?_
    rwa [hSteps]

theorem pure (a : α) : Follows q steps (Pure.pure a : Attempt σ α) (Pure.pure a) :=
  of_inert (inert_pure a)

/-- A failure that is no stop happens in both runs. -/
theorem throw {e : Failure} (h : e.isStop = false) :
    Follows q steps (MonadExcept.throw e : Attempt σ α) (MonadExcept.throw e) where
  advances _ := Nat.le_refl _
  agrees _ hs := .same rfl h hs

end Follows

end Attempt

open Attempt

/-- Turns of loops begun by the run of a machine. -/
def Machine.steps (m : Machine) : Nat := m.run.steps

namespace Execution

variable {α : Type} {q : Policy}

/-- An evaluation on the machine follows as it does on each table. -/
theorem follows_reading {f g : Table → Evaluation α}
    (h : ∀ t, Follows q Run.steps (f t) (g t)) :
    Follows q Machine.steps (reading f) (reading g) where
  advances m := (h m.table).advances m.run
  agrees m hm := ((h m.table).agrees m.run hm).lift (fun r => (r.1, { m with run := r.2 }))
    (fun _ => rfl) (fun _ _ => rfl) (fun _ _ => rfl)

theorem inert_reading {f : Table → Evaluation α} (h : ∀ t, Inert Run.steps (f t)) :
    Inert Machine.steps (reading f) := fun m => h m.table m.run

/-- Updating a table begins no turn. -/
theorem inert_updating {f : Table → Except Failure Table} (h : ∀ t, isOrdinary (f t) = true) :
    Inert Machine.steps (updating f) := by
  intro m
  have hTable := h m.table
  rw [runOn_updating]
  cases hResult : f m.table with
  | ok table => exact ⟨rfl, rfl⟩
  | error e => exact ⟨rfl, by rwa [hResult] at hTable⟩

theorem inert_merging (scope : Table) (shadows : List String) :
    Inert Machine.steps (merging scope shadows) :=
  fun m => ⟨rfl, Table.merge_ordinary m.table scope shadows⟩

theorem inert_halted : Inert Machine.steps halted := fun _ => ⟨rfl, rfl⟩

/-- Turns that were begun in a scope stay counted when it is left. -/
theorem leaving_steps (m : Machine) (shadows : List String) (r : Except Failure α × Machine) :
    (leaving m shadows r).2.steps = r.2.steps := by
  rcases r with ⟨e | a, inner⟩ <;> rfl

/-- Leaving a scope may fail, but not as a stop. -/
theorem leaving_unstopped (m inner : Machine) (shadows : List String) (a : α) :
    isStopped (leaving m shadows (.ok a, inner)).1 = false := by
  have hMerge := isStopped_of_ordinary (Table.merge_ordinary m.table inner.table shadows)
  unfold leaving
  dsimp only
  cases hResult : (m.table.merge inner.table shadows).1 with
  | ok _ => rfl
  | error e => rwa [hResult] at hMerge

/-- Both bodies run in a scope, and both scopes are left in the same way. -/
theorem follows_inScope (shadows : List String) {x y : Execution α}
    (h : Follows q Machine.steps x y) :
    Follows q Machine.steps (inScope shadows x) (inScope shadows y) where
  advances m := by
    rw [runOn_inScope, leaving_steps]
    exact h.advances m
  agrees m hm := by
    rw [runOn_inScope, runOn_inScope]
    exact (h.agrees m hm).lift (leaving m shadows) (leaving_steps m shadows)
      (fun _ _ => rfl) fun a inner => leaving_unstopped m inner shadows a

/-- Counting a turn is where a limited run can be stopped. -/
theorem follows_tick (q : Policy) (patience : Nat) :
    Follows q Machine.steps (tick q) (tick (q.freed patience)) where
  advances m := Nat.le_succ m.steps
  agrees m hm := by
    have hFreed : runOn (tick (q.freed patience)) m = (.ok (), counted m) := runOn_tick _ m
    rw [hFreed, runOn_tick]
    cases hLimit : q.limit with
    | none =>
        refine .same rfl rfl ?_
        intro limit h
        rw [hLimit] at h
        cases h
    | some limit =>
        dsimp only
        split
        · next hBeyond =>
            refine .stopped (by rw [Policy.stop, hLimit]) ?_ (Nat.le_refl _)
            intro limit' h
            rw [hLimit] at h
            cases h
            exact hBeyond
        · next hWithin =>
            refine .same rfl rfl ?_
            intro limit' h
            rw [hLimit] at h
            cases h
            exact Int.not_lt.mp hWithin

/-- Of the parts of a turn only the count differs between the two runs. -/
theorem follows_turn {patience : Nat} {test test' : Execution Float}
    {body body' : Execution Outcome} (hTest : Follows q Machine.steps test test')
    (hBody : Follows q Machine.steps body body') :
    Follows q Machine.steps (turn q test body) (turn (q.freed patience) test' body') := by
  refine .bind (.of_inert inert_halted) fun ended => ?_
  split
  · exact .pure none
  · refine .bind hTest fun truth => ?_
    split
    · refine .bind (follows_tick q patience) fun _ => ?_
      exact .bind hBody fun outcome => .pure (some outcome)
    · exact .pure none

/-- Every turn that a loop takes is counted. -/
theorem turn_counts {policy : Policy} {test : Execution Float} {body : Execution Outcome}
    (hTest : ∀ m, m.steps ≤ (runOn test m).2.steps)
    (hBody : ∀ m, m.steps ≤ (runOn body m).2.steps) {m m' : Machine} {outcome : Outcome}
    (h : runOn (turn policy test body) m = (.ok (some outcome), m')) : m.steps < m'.steps := by
  obtain ⟨truth, tested, _, hTested, _, _, hTaken⟩ := turn_taken h
  have hBefore := hTest m
  have hAfter := hBody (counted tested)
  rw [hTested] at hBefore
  rw [hTaken] at hAfter
  exact Nat.lt_of_le_of_lt hBefore hAfter

/-- What a turn has counted is not taken back by the turns after it. -/
theorem turn_le_loop {turn : Execution (Option Outcome)} {turns : Nat}
    (hRest : ∀ value m, m.steps ≤ (runOn (loop turn turns value) m).2.steps)
    (value : Option Float) (m : Machine) :
    (runOn turn m).2.steps ≤ (runOn (loop turn (turns + 1) value) m).2.steps := by
  refine steps_le_bind turn (fun outcome m => ?_) m
  cases outcome with
  | none => exact Nat.le_refl _
  | some outcome =>
      obtain ⟨given, flow⟩ := outcome
      cases flow with
      | normal => exact hRest _ m
      | breaking => exact Nat.le_refl _
      | continuing => exact hRest _ m
      | returning => exact Nat.le_refl _

/-- Induction over the turns that are left. -/
theorem loop_advances {turn : Execution (Option Outcome)}
    (hTurn : ∀ m, m.steps ≤ (runOn turn m).2.steps) (turns : Nat) (value : Option Float)
    (m : Machine) : m.steps ≤ (runOn (loop turn turns value) m).2.steps := by
  induction turns generalizing value m with
  | zero => exact Nat.le_refl _
  | succ turns ih => exact Nat.le_trans (hTurn m) (turn_le_loop ih value m)

/-- The induction is on the turns that the limited loop has left. They always
reach beyond the limit, so a loop under a limit does not run out of them. -/
theorem loop_agrees {turn turn' : Execution (Option Outcome)}
    (hTurn : Follows q Machine.steps turn turn')
    (hCounts : ∀ m m' outcome, runOn turn' m = (.ok (some outcome), m') → m.steps < m'.steps)
    {turns turns' : Nat} (hTurns : turns ≤ turns') (value : Option Float) {m : Machine}
    (hAllows : q.Allows m.steps) (hEnough : q.Exceeds (m.steps + turns)) :
    Agrees q Machine.steps (runOn (loop turn turns value) m)
      (runOn (loop turn' turns' value) m) := by
  induction turns generalizing turns' value m with
  | zero =>
      refine .stopped ?_ hEnough (loop_advances hTurn.advances turns' value m)
      rw [Policy.stop_of_exceeds hAllows hEnough]
      rfl
  | succ turns ih =>
      cases turns' with
      | zero => omega
      | succ turns' =>
          refine (hTurn.agrees m hAllows).bind (fun outcome after hRun hAfter => ?_)
            (turn_le_loop (loop_advances hTurn.advances turns') value m)
          cases outcome with
          | none => exact .same rfl rfl hAfter
          | some outcome =>
              have hNext (value : Option Float) :
                  Agrees q Machine.steps (runOn (loop turn turns value) after)
                    (runOn (loop turn' turns' value) after) := by
                -- The turn just taken was counted, which makes up for the one less that is left.
                refine ih (Nat.le_of_succ_le_succ hTurns) value hAfter fun limit hLimit => ?_
                have hCounted := hCounts m after outcome hRun
                have hReach := hEnough limit hLimit
                omega
              obtain ⟨given, flow⟩ := outcome
              cases flow with
              | normal => exact hNext _
              | breaking => exact .same rfl rfl hAfter
              | continuing => exact hNext _
              | returning => exact .same rfl rfl hAfter

/-- A loop follows the same loop without a limit, if that has the patience to
take as many turns. -/
theorem follows_loop {patience : Nat} (hPatience : q.turns ≤ patience)
    {test test' : Execution Float} {body body' : Execution Outcome}
    (hTest : Follows q Machine.steps test test') (hBody : Follows q Machine.steps body body')
    (value : Option Float) :
    Follows q Machine.steps (loop (turn q test body) q.turns value)
      (loop (turn (q.freed patience) test' body') patience value) where
  advances m := loop_advances (follows_turn hTest hBody).advances patience value m
  agrees m hm := by
    refine loop_agrees (follows_turn hTest hBody) ?_ hPatience value hm
      (q.exceeds_turns m.steps)
    intro before after outcome h
    exact turn_counts hTest.advances hBody.advances h

end Execution

namespace Subroutine

variable {q : Policy}

theorem handedBack_steps (r : Except Failure Outcome × Machine) :
    (handedBack r).2.steps = r.2.steps := by
  rcases r with ⟨e | outcome, m⟩ <;> rfl

/-- The run of a body is part of the run of its caller. -/
theorem follows_runBody (scope : Table) {x y : Execution Outcome}
    (h : Follows q Machine.steps x y) :
    Follows q Run.steps (activate.runBody scope x) (activate.runBody scope y) where
  advances run := by
    rw [runBody_eq_handedBack, handedBack_steps]
    exact h.advances ⟨scope, run⟩
  agrees run hRun := by
    rw [runBody_eq_handedBack, runBody_eq_handedBack]
    exact (h.agrees ⟨scope, run⟩ hRun).lift handedBack handedBack_steps
      (fun _ _ => rfl) (fun _ _ => rfl)

end Subroutine

end Reckoner
