import Reckoner.Interpreter

/-! Contracts for computations that may fail. A contract says from which states
a computation starts, what holds of its value and the state when it succeeds,
and what holds of the failure and the state when it does not. A failure undoes
nothing, so there is a state to speak about in both cases. -/
namespace Reckoner

/-- Evaluations and executions alike: the state is a run or a machine. -/
abbrev Attempt (σ α : Type) := ExceptT Failure (StateM σ) α

namespace Attempt

variable {σ α β : Type}

/-- What a computation comes to when it starts in a state. -/
def runOn (x : Attempt σ α) (s : σ) : Except Failure α × σ := x.run s

@[simp] theorem runOn_pure (a : α) (s : σ) :
    runOn (pure a : Attempt σ α) s = (.ok a, s) := rfl

@[simp] theorem runOn_throw (e : Failure) (s : σ) :
    runOn (throw e : Attempt σ α) s = (.error e, s) := rfl

@[simp] theorem runOn_get (s : σ) : runOn (get : Attempt σ σ) s = (.ok s, s) := rfl

@[simp] theorem runOn_set (s s' : σ) :
    runOn (set s' : Attempt σ PUnit) s = (.ok ⟨⟩, s') := rfl

/-- A failure of the first computation ends both, in the state that it had
reached. -/
theorem runOn_bind (x : Attempt σ α) (f : α → Attempt σ β) (s : σ) :
    runOn (x >>= f) s = match runOn x s with
      | (.ok a, s') => runOn (f a) s'
      | (.error e, s') => (.error e, s') := by
  change (match runOn x s with
    | (result, s') => ExceptT.bindCont f result s') = _
  rcases runOn x s with ⟨e | a, s'⟩ <;> rfl

/-- Success of two computations comes from success of each, with a state between
them. -/
theorem bind_ok_iff {x : Attempt σ α} {f : α → Attempt σ β} {s s' : σ} {b : β} :
    runOn (x >>= f) s = (.ok b, s') ↔
      ∃ a middle, runOn x s = (.ok a, middle) ∧ runOn (f a) middle = (.ok b, s') := by
  rw [runOn_bind]
  rcases runOn x s with ⟨e | a, middle⟩ <;> simp [and_assoc]

/-- A failure is that of the first computation, or that of the second after the
first has succeeded. -/
theorem bind_error_iff {x : Attempt σ α} {f : α → Attempt σ β} {s s' : σ}
    {e : Failure} :
    runOn (x >>= f) s = (.error e, s') ↔
      runOn x s = (.error e, s') ∨
        ∃ a middle, runOn x s = (.ok a, middle) ∧ runOn (f a) middle = (.error e, s') := by
  rw [runOn_bind]
  rcases runOn x s with ⟨e' | a, middle⟩ <;> simp [and_assoc]

/-- Started in a state with `pre`, the computation ends with `post` or fails
with `fail`. Every computation ends, so this is not only partial correctness. -/
def Meets (pre : σ → Prop) (x : Attempt σ α) (post : α → σ → Prop)
    (fail : Failure → σ → Prop) : Prop :=
  ∀ s, pre s → match runOn x s with
    | (.ok a, s') => post a s'
    | (.error e, s') => fail e s'

namespace Meets

variable {pre pre' : σ → Prop} {post post' : α → σ → Prop} {fail fail' : Failure → σ → Prop}

/-- What a contract promises of one run that succeeded. -/
theorem ok {x : Attempt σ α} (h : Meets pre x post fail) {s s' : σ} (hs : pre s) {a : α}
    (hRun : runOn x s = (.ok a, s')) : post a s' := by
  have hx := h s hs
  rwa [hRun] at hx

/-- What a contract promises of one run that failed. -/
theorem error {x : Attempt σ α} (h : Meets pre x post fail) {s s' : σ} (hs : pre s)
    {e : Failure} (hRun : runOn x s = (.error e, s')) : fail e s' := by
  have hx := h s hs
  rwa [hRun] at hx

/-- For what holds of the state however the computation ends. -/
theorem of_state {x : Attempt σ α} {Q : σ → Prop} (h : ∀ s, pre s → Q (runOn x s).2) :
    Meets pre x (fun _ => Q) (fun _ => Q) := by
  intro s hs
  have hx := h s hs
  rcases hRun : runOn x s with ⟨e | a, s'⟩ <;> rwa [hRun] at hx

/-- A promise about the state alone holds however the run ends. -/
theorem state {x : Attempt σ α} {Q : σ → Prop}
    (h : Meets pre x (fun _ => Q) (fun _ => Q)) {s : σ} (hs : pre s) : Q (runOn x s).2 := by
  rcases hRun : runOn x s with ⟨e | a, s'⟩
  · exact h.error hs hRun
  · exact h.ok hs hRun

/-- The rule of consequence, with the failures included. -/
theorem weaken {x : Attempt σ α} (h : Meets pre' x post' fail')
    (hPre : ∀ s, pre s → pre' s) (hPost : ∀ a s, post' a s → post a s)
    (hFail : ∀ e s, fail' e s → fail e s) : Meets pre x post fail := by
  intro s hs
  rcases hRun : runOn x s with ⟨e | a, s'⟩
  · exact hFail e s' (h.error (hPre s hs) hRun)
  · exact hPost a s' (h.ok (hPre s hs) hRun)

theorem weakenFail {x : Attempt σ α} (h : Meets pre x post fail')
    (hFail : ∀ e s, fail' e s → fail e s) : Meets pre x post fail :=
  h.weaken (fun _ hs => hs) (fun _ _ hs => hs) hFail

/-- Two contracts for one computation are a contract together. -/
theorem and {x : Attempt σ α} (h : Meets pre x post fail)
    (h' : Meets pre x post' fail') :
    Meets pre x (fun a s => post a s ∧ post' a s) fun e s => fail e s ∧ fail' e s := by
  intro s hs
  rcases hRun : runOn x s with ⟨e | a, s'⟩
  · exact ⟨h.error hs hRun, h'.error hs hRun⟩
  · exact ⟨h.ok hs hRun, h'.ok hs hRun⟩

/-- A fact that does not speak about the state may be used as a hypothesis. -/
theorem fact {x : Attempt σ α} {p : Prop} (h : p → Meets pre x post fail) :
    Meets (fun s => pre s ∧ p) x post fail := fun s hs => h hs.2 s hs.1

/-- A value that is at hand leaves the state as it was. -/
theorem pure {a : α} (h : ∀ s, pre s → post a s) :
    Meets pre (Pure.pure a : Attempt σ α) post fail := h

theorem throw {e : Failure} (h : ∀ s, pre s → fail e s) :
    Meets pre (MonadExcept.throw e : Attempt σ α) post fail := h

theorem modify {f : σ → σ} {post : PUnit → σ → Prop} (h : ∀ s, pre s → post ⟨⟩ (f s)) :
    Meets pre (modifyThe σ f : Attempt σ PUnit) post fail := h

/-- The rule of composition. Failures of both computations meet one and the same
condition, so no case is needed for where the failure came from. -/
theorem bind {x : Attempt σ α} {f : α → Attempt σ β} {Q : α → σ → Prop}
    {post : β → σ → Prop} (hFirst : Meets pre x Q fail)
    (hRest : ∀ a, Meets (Q a) (f a) post fail) : Meets pre (x >>= f) post fail := by
  intro s hs
  rw [runOn_bind]
  rcases hRun : runOn x s with ⟨e | a, s'⟩
  · exact hFirst.error hs hRun
  · exact hRest a s' (hFirst.ok hs hRun)

end Meets

end Attempt

/-! The steps that executions are made of, each as what it comes to on a machine. -/
namespace Execution

open Attempt

variable {α : Type}

/-- An evaluation sees the table and moves the run, but it cannot change the
table. -/
theorem runOn_reading (f : Table → Evaluation α) (m : Machine) :
    runOn (reading f) m =
      ((runOn (f m.table) m.run).1, { m with run := (runOn (f m.table) m.run).2 }) := rfl

/-- What is known when a value was read: the machine has its old table. -/
theorem reading_ok {f : Table → Evaluation α} {m m' : Machine} {a : α}
    (h : runOn (reading f) m = (.ok a, m')) :
    ∃ run, runOn (f m.table) m.run = (.ok a, run) ∧ m' = { m with run := run } := by
  rw [runOn_reading] at h
  obtain ⟨hValue, hMachine⟩ := Prod.mk.inj h
  exact ⟨_, Prod.ext hValue rfl, hMachine.symm⟩

/-- An update that is refused leaves the machine as it was. -/
theorem runOn_updating (f : Table → Except Failure Table) (m : Machine) :
    runOn (updating f) m = match f m.table with
      | .ok table => (.ok (), { m with table := table })
      | .error e => (.error e, m) := rfl

/-- A merge keeps what it has copied back even where it fails half way. -/
theorem runOn_merging (scope : Table) (shadows : List String) (m : Machine) :
    runOn (merging scope shadows) m =
      ((m.table.merge scope shadows).1, { m with table := (m.table.merge scope shadows).2 }) := rfl

/-- What becomes of the result of a body when its scope is left for the table of
the machine. -/
def leaving (m : Machine) (shadows : List String) :
    Except Failure α × Machine → Except Failure α × Machine
  | (.ok a, inner) => ((m.table.merge inner.table shadows).1.map fun _ => a,
      ⟨(m.table.merge inner.table shadows).2, inner.run⟩)
  | (.error e, inner) => (.error e, ⟨m.table, inner.run⟩)

/-- A body runs on the table as it is. Its own table is dropped at the end but
for what is copied back. -/
theorem runOn_inScope (shadows : List String) (body : Execution α) (m : Machine) :
    runOn (inScope shadows body) m = leaving m shadows (runOn body m) := rfl

/-- The machine after one more turn of a loop was counted. -/
def counted (m : Machine) : Machine :=
  { m with run := { m.run with steps := m.run.steps + 1 } }

/-- The turn is counted before the limit is tested, so the count goes one beyond
the limit where the run is stopped. -/
theorem runOn_tick (policy : Policy) (m : Machine) :
    runOn (tick policy) m = match policy.limit with
      | some limit =>
        if limit < (m.run.steps + 1 : Nat) then
          (.error (.run (.iterationsExceeded limit)), counted m)
        else (.ok (), counted m)
      | none => (.ok (), counted m) := by
  simp only [tick, runOn_bind, runOn_get, runOn_set, counted]
  cases policy.limit with
  | none => rfl
  | some limit =>
      by_cases h : limit < (m.run.steps + 1 : Nat)
      · simp only [h, if_true, runOn_throw]
      · simp only [h, if_false, runOn_pure]

/-- A turn of which the count was accepted stays within the limit. -/
theorem tick_ok {policy : Policy} {m m' : Machine} (h : runOn (tick policy) m = (.ok (), m')) :
    m' = counted m ∧ ∀ limit, policy.limit = some limit → (m.run.steps + 1 : Nat) ≤ limit := by
  rw [runOn_tick] at h
  cases hLimit : policy.limit with
  | none =>
      rw [hLimit] at h
      cases h
      exact ⟨rfl, by simp⟩
  | some limit =>
      rw [hLimit] at h
      dsimp only at h
      split at h
      · cases h
      · next hWithin =>
          cases h
          refine ⟨rfl, ?_⟩
          rintro _ ⟨⟩
          exact Int.not_lt.mp hWithin

/-- A turn that was taken has passed its test and its count. -/
theorem turn_taken {policy : Policy} {test : Execution Float} {body : Execution Outcome}
    {m m' : Machine} {outcome : Outcome}
    (h : runOn (turn policy test body) m = (.ok (some outcome), m')) :
    ∃ truth tested, m.run.halted = false ∧ runOn test m = (.ok truth, tested) ∧
      Arithmetic.isTrue truth = true ∧
      (∀ limit, policy.limit = some limit → (tested.run.steps + 1 : Nat) ≤ limit) ∧
      runOn body (counted tested) = (.ok outcome, m') := by
  obtain ⟨ended, m₁, hHalted, h⟩ := bind_ok_iff.mp h
  cases hHalted
  split at h
  · cases h
  · next hRunning =>
      obtain ⟨truth, tested, hTest, h⟩ := bind_ok_iff.mp h
      split at h
      · next hTrue =>
          obtain ⟨_, m₂, hTick, h⟩ := bind_ok_iff.mp h
          obtain ⟨outcome', m₃, hBody, h⟩ := bind_ok_iff.mp h
          cases h
          obtain ⟨rfl, hWithin⟩ := tick_ok hTick
          exact ⟨truth, tested, by simpa using hRunning, hTest, hTrue, hWithin, hBody⟩
      · cases h

end Execution

namespace Subroutine

/-- What the caller of a subroutine sees of the result of its body. -/
def handedBack : Except Failure Outcome × Machine → Except Failure (Outcome × Table) × Run
  | (.ok outcome, m) => (.ok (outcome, m.table), m.run)
  | (.error e, m) => (.error e, m.run)

/-- The body of a subroutine has a machine of its own, of which the caller sees
the table if it succeeded, and the run in any case. -/
theorem runBody_eq_handedBack (scope : Table) (body : Execution Outcome) (run : Run) :
    Attempt.runOn (activate.runBody scope body) run =
      handedBack (Attempt.runOn body ⟨scope, run⟩) := rfl

end Subroutine

end Reckoner
