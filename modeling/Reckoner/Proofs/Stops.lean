import Reckoner.Proofs.Contract

/-! Which failures the operations of the language have. These are the ordinary
ones: they tell about numbers, names and calls. A failure that stops a run from
outside is not among them, and neither is one that complains about where a
statement stands. Only loops count turns, and only statements end a run. -/
namespace Reckoner

/-- The failures of operations on numbers, names and tables. -/
def Failure.isOrdinary : Failure → Bool
  | .math _ | .symbol _ | .undefinedRemainder => true
  | .flow (.unimplementedFeature _) | .flow (.alreadyDefined ..) => true
  | .flow (.notFound _) | .flow (.wrongArgumentCount ..) => true
  | _ => false

def isOrdinary {α : Type} : Except Failure α → Bool
  | .ok _ => true
  | .error e => e.isOrdinary

/-- The ordinary failures that the language has an error for. -/
def Failure.isTold : Failure → Bool
  | .undefinedRemainder => false
  | e => e.isOrdinary

def isTold {α : Type} : Except Failure α → Bool
  | .ok _ => true
  | .error e => e.isTold

theorem Failure.isOrdinary_of_told {e : Failure} (h : e.isTold = true) : e.isOrdinary = true := by
  unfold isTold at h
  split at h
  · cases h
  · exact h

/-- The only ordinary failure without an error of its own is an undefined
remainder. -/
theorem Failure.isTold_of_ordinary {e : Failure} (h : e.isOrdinary = true)
    (hDefined : e ≠ .undefinedRemainder) : e.isTold = true := by
  unfold isTold
  split
  · exact absurd rfl hDefined
  · exact h

/-- What holds of failures carries over to results, since a value is no failure
at all. -/
theorem isOrdinary_of_told {α : Type} {r : Except Failure α} (h : isTold r = true) :
    isOrdinary r = true := by
  cases r with
  | ok a => rfl
  | error e => exact Failure.isOrdinary_of_told h

/-- Whether a failure comes from a limit on turns or from lack of patience. -/
def Failure.isStop : Failure → Bool
  | .endless | .run (.iterationsExceeded _) => true
  | _ => false

def isStopped {α : Type} : Except Failure α → Bool
  | .ok _ => false
  | .error e => e.isStop

/-- No ordinary failure comes from a limit: operations neither count turns nor
wait. -/
theorem Failure.isStop_of_ordinary {e : Failure} (h : e.isOrdinary = true) : e.isStop = false := by
  unfold isStop
  split
  · cases h
  · cases h
  · rfl

theorem isStopped_of_ordinary {α : Type} {r : Except Failure α} (h : isOrdinary r = true) :
    isStopped r = false := by
  cases r with
  | ok a => rfl
  | error e => exact Failure.isStop_of_ordinary h

/-- Ordinary results are closed under sequencing. The rest has to be ordinary
for every value, as the first part may return any. -/
theorem isOrdinary_bind {α β : Type} {r : Except Failure α} {f : α → Except Failure β}
    (hFirst : isOrdinary r = true) (hRest : ∀ a, isOrdinary (f a) = true) :
    isOrdinary (r >>= f) = true := by
  cases r with
  | ok a => exact hRest a
  | error e => exact hFirst

theorem isTold_bind {α β : Type} {r : Except Failure α} {f : α → Except Failure β}
    (hFirst : isTold r = true) (hRest : ∀ a, isTold (f a) = true) : isTold (r >>= f) = true := by
  cases r with
  | ok a => exact hRest a
  | error e => exact hFirst

/-! Arithmetic and lookups. Only a remainder can be undefined. -/

/-- A power without a value is reported, never left undefined. -/
theorem Arithmetic.power_told (a b : Float) : isTold (power a b) = true := by
  unfold power
  split
  · rfl
  · split <;> rfl

/-- A root is a power with the inverse exponent, after two checks of its own. -/
theorem Arithmetic.root_told (a b : Float) : isTold (root a b) = true := by
  unfold root
  split
  · rfl
  · split
    · rfl
    · exact power_told b (1.0 / a)

/-- The remainder is the one operation that may fail without an error of the
language: an infinite dividend has none. -/
theorem Arithmetic.modulo_ordinary (a b : Float) : isOrdinary (modulo a b) = true := by
  unfold modulo
  split
  · rfl
  · split <;> rfl

/-- Every infix operation but the remainder fails with an error of the language. -/
theorem Arithmetic.binary_told {op : Operator} (h : op ≠ .mod) (a b : Float) :
    isTold (binary op a b) = true := by
  cases op with
  | div => unfold binary divide; dsimp only; split <;> rfl
  | mod => exact absurd rfl h
  | pow => exact power_told a b
  | root => exact root_told a b
  | _ => rfl

/-- With the remainder included, infix operations still fail only in ordinary
ways. -/
theorem Arithmetic.binary_ordinary (op : Operator) (a b : Float) :
    isOrdinary (binary op a b) = true := by
  cases op with
  | mod => exact modulo_ordinary a b
  | _ => exact isOrdinary_of_told (binary_told (by decide) a b)

/-- An operator that cannot stand before a number is an error of the language,
and the square root fails as other roots do. -/
theorem Arithmetic.unary_told (op : Operator) (a : Float) : isTold (unary op a) = true := by
  cases op with
  | root => exact root_told 2.0 a
  | _ => rfl

theorem Arithmetic.unary_ordinary (op : Operator) (a : Float) :
    isOrdinary (unary op a) = true := isOrdinary_of_told (unary_told op a)

/-- Rounding a result and refusing what is not a number adds only an ordinary
failure. -/
theorem Arithmetic.settle_ordinary {r : Except Failure Float} (h : isOrdinary r = true) :
    isOrdinary (settle r) = true := by
  apply isOrdinary_bind h
  intro a
  dsimp only
  split <;> rfl

/-- A name without a value is reported as such. -/
theorem Expr.lookup_told (t : Table) (x : String) : isTold (lookup t x) = true := by
  unfold lookup
  split <;> rfl

theorem Expr.lookup_ordinary (t : Table) (x : String) : isOrdinary (lookup t x) = true :=
  isOrdinary_of_told (lookup_told t x)

/-- The target of an assignment is refused if it is absent, a constant that
every program knows, or no name at all, and each has its error. -/
theorem Expr.checkTarget_told (t : Table) (absent : String → SymbolError) (e : Expr) :
    isTold (checkTarget t absent e) = true := by
  cases e with
  | name x =>
      simp only [checkTarget]
      split
      · rfl
      · split <;> rfl
  | _ => rfl

theorem Expr.checkTarget_ordinary (t : Table) (absent : String → SymbolError) (e : Expr) :
    isOrdinary (checkTarget t absent e) = true := isOrdinary_of_told (checkTarget_told t absent e)

/-- The complaint about a call depends on what the name stands for, but is
always an error of the language. -/
theorem Expr.uncallable_told (t : Table) (name : String) : (uncallable t name).isTold = true := by
  unfold uncallable
  split <;> rfl

theorem Expr.uncallable_ordinary (t : Table) (name : String) :
    (uncallable t name).isOrdinary = true := Failure.isOrdinary_of_told (uncallable_told t name)

/-! Tables. -/

namespace Table

/-- An assignment is refused with an error about the name: constants keep their
values. -/
theorem assign_told (t : Table) (name : String) (value : Float) :
    isTold (t.assign name value) = true := by
  unfold assign
  dsimp only
  split
  · rfl
  · split
    · split <;> rfl
    · rfl

theorem assign_ordinary (t : Table) (name : String) (value : Float) :
    isOrdinary (t.assign name value) = true := isOrdinary_of_told (t.assign_told name value)

/-- A constant is declared once. A second declaration is an error about the
name. -/
theorem declareConstant_told (t : Table) (name : String) (value : Float) :
    isTold (t.declareConstant name value) = true := by
  unfold declareConstant
  split
  · rfl
  · split <;> rfl

theorem declareConstant_ordinary (t : Table) (name : String) (value : Float) :
    isOrdinary (t.declareConstant name value) = true :=
  isOrdinary_of_told (t.declareConstant_told name value)

/-- Declaring a subroutine again is an error, whichever kind it has. -/
theorem declare_told (t : Table) (kind : Subroutine.Kind) (s : Subroutine) :
    isTold (t.declare kind s) = true := by
  unfold declare
  split <;> split <;> rfl

theorem declare_ordinary (t : Table) (kind : Subroutine.Kind) (s : Subroutine) :
    isOrdinary (t.declare kind s) = true := isOrdinary_of_told (t.declare_told kind s)

/-- Step and run for assignments: the first one that is refused gives the
failure of all. -/
theorem assignAll_told (t : Table) (values : List (String × Float)) :
    isTold (t.assignAll values) = true := by
  induction values generalizing t with
  | nil => rfl
  | cons entry rest ih =>
      exact isTold_bind (assign_told t entry.1 entry.2) fun t' => ih t'

theorem assignAll_ordinary (t : Table) (values : List (String × Float)) :
    isOrdinary (t.assignAll values) = true := isOrdinary_of_told (t.assignAll_told values)

/-- Copying values back into a table fails at most as one of its assignments
does, whatever is shadowed. -/
theorem restoreAll_ordinary (t : Table) (shadows : List String)
    (values : List (String × Float)) : isOrdinary (t.restoreAll shadows values).1 = true := by
  induction values generalizing t with
  | nil => rfl
  | cons entry rest ih =>
      obtain ⟨name, value⟩ := entry
      have hRestore : isOrdinary (t.restore shadows name value) = true := by
        unfold restore
        split
        · rfl
        · split
          · rfl
          · exact assign_ordinary t name value
      unfold restoreAll
      cases hStep : t.restore shadows name value with
      | ok t' => exact ih t'
      | error e => rwa [hStep] at hRestore

/-- The end of a scope fails only in ordinary ways. -/
theorem merge_ordinary (t scope : Table) (shadows : List String) :
    isOrdinary (t.merge scope shadows).1 = true :=
  restoreAll_ordinary t shadows scope.items

end Table

/-! Steps of a run that leave some view of its state alone. -/

namespace Attempt

variable {σ α β γ : Type} {view : σ → γ}

/-- A computation that leaves a view of the state alone and fails only in
ordinary ways. -/
def Inert (view : σ → γ) (x : Attempt σ α) : Prop :=
  ∀ s, view (runOn x s).2 = view s ∧ isOrdinary (runOn x s).1 = true

/-- Leaving a view alone leaves each part of the view alone. -/
theorem Inert.comp {δ : Type} {x : Attempt σ α} (h : Inert view x) (part : γ → δ) :
    Inert (part ∘ view) x := fun s => ⟨congrArg part (h s).1, (h s).2⟩

theorem inert_pure (a : α) : Inert view (pure a : Attempt σ α) := fun _ => ⟨rfl, rfl⟩

theorem inert_throw {e : Failure} (h : e.isOrdinary = true) :
    Inert view (throw e : Attempt σ α) := fun _ => ⟨rfl, h⟩

/-- Inert computations compose: the second one starts from the view that the
first one kept. -/
theorem inert_bind {x : Attempt σ α} {f : α → Attempt σ β} (hFirst : Inert view x)
    (hRest : ∀ a, Inert view (f a)) : Inert view (x >>= f) := by
  intro s
  obtain ⟨hView, hOrdinary⟩ := hFirst s
  rw [runOn_bind]
  rcases hRun : runOn x s with ⟨e | a, s'⟩ <;> rw [hRun] at hView hOrdinary
  · exact ⟨hView, hOrdinary⟩
  · obtain ⟨hView', hOrdinary'⟩ := hRest a s'
    exact ⟨hView'.trans hView, hOrdinary'⟩

end Attempt

open Attempt

/-- A result that is already known touches no state, so it is inert as soon as
its failure is ordinary. -/
theorem Evaluation.inert_ofExcept {α γ : Type} {view : Run → γ} {r : Except Failure α}
    (h : isOrdinary r = true) : Inert view (ofExcept r) := by
  cases r with
  | ok a => exact inert_pure a
  | error e => exact inert_throw h

/-- What a run has done, apart from the random numbers it has read. -/
def Run.deeds (run : Run) : Nat × Option (Option Float) := (run.steps, run.exit)

/-- Reading a random number takes no turn and ends no run. -/
theorem Evaluation.inert_draw (policy : Policy) : Inert Run.deeds (draw policy) :=
  fun _ => ⟨rfl, rfl⟩

namespace Builtin

/-- Accepting the value of a function looks at it and at the arguments, never at
the run. -/
theorem inert_defined (b : Builtin) (args : List Float) (value : Option Float) :
    Inert Run.deeds (Evaluation.ofExcept (b.defined args value)) := by
  apply Evaluation.inert_ofExcept
  unfold defined
  split
  · split <;> rfl
  · rfl

/-- Random functions advance the source of numbers and do nothing else, and
every other function only computes. -/
theorem inert_apply (policy : Policy) (b : Builtin) (args : List Float) :
    Inert Run.deeds (b.apply policy args) := by
  unfold apply
  split
  · exact Evaluation.inert_draw policy
  · exact inert_bind (Evaluation.inert_draw policy) fun _ => inert_pure _
  · split
    · exact inert_throw rfl
    · exact inert_bind (Evaluation.inert_draw policy) fun _ => inert_pure _
  · exact inert_defined _ _ _
  · exact inert_throw rfl
  · exact inert_pure _
  · exact inert_pure _
  · exact inert_defined _ _ _
  · exact inert_throw rfl

/-- Functions fail only in ways that the language has an error for. -/
theorem told_apply (policy : Policy) (b : Builtin) (args : List Float) (run : Run) :
    isTold (runOn (b.apply policy args) run).1 = true := by
  have hDefined (b : Builtin) (value : Option Float) :
      isTold (runOn (Evaluation.ofExcept (b.defined args value)) run).1 = true := by
    unfold defined
    split
    · split <;> rfl
    · rfl
  unfold apply
  split
  · rfl
  · rfl
  · split <;> rfl
  · exact hDefined _ _
  · rfl
  · rfl
  · rfl
  · exact hDefined _ _
  · rfl

/-- A call checks the number of its arguments first, and reports a wrong one. -/
theorem told_call (policy : Policy) (b : Builtin) (args : List Float) (run : Run) :
    isTold (runOn (b.call policy args) run).1 = true := by
  unfold call
  split
  · rfl
  · have hApply := told_apply policy b args run
    rw [runOn_bind]
    rcases hRun : runOn (b.apply policy args) run with ⟨e | a, run'⟩
    · rwa [hRun] at hApply
    · rfl

/-- Calls of functions take no turns and end no runs, so the deeds of a run are
those of its statements. -/
theorem inert_call (policy : Policy) (b : Builtin) (args : List Float) :
    Inert Run.deeds (b.call policy args) := by
  unfold call
  split
  · exact inert_bind (inert_throw rfl) fun _ =>
      inert_bind (inert_apply policy b args) fun _ => inert_pure _
  · exact inert_bind (inert_apply policy b args) fun _ => inert_pure _

end Builtin

end Reckoner
