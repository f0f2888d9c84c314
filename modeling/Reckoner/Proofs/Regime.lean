import Reckoner.Proofs.Following
import Reckoner.Proofs.Merging
import Reckoner.Proofs.Reachable

/-! Regimes. A regime says which values, which expressions and which failures
may occur. If the expressions of a program and of the subroutines in its table
are allowed, then every run keeps to the regime: this is shown once, for any
regime whose single operations do. -/
namespace Reckoner

open Attempt

namespace Expr

mutual

/-- The expression and all that it is made of. -/
def parts : Expr → List Expr
  | number value text => [number value text]
  | name x => [name x]
  | unary op e => unary op e :: e.parts
  | binary op left right => binary op left right :: (left.parts ++ right.parts)
  | call callee args => call callee args :: partsAll args

def partsAll : List Expr → List Expr
  | [] => []
  | e :: rest => e.parts ++ partsAll rest

end

/-- On some table that comes about, the one expression and then the other come
to these numbers. -/
def Meet (policy : Policy) (left right : Expr) (a b : Float) : Prop :=
  ∃ (depth : Nat) (t : Table) (before between after : Run), t.Reachable ∧
    runOn (left.evaluate policy (Subroutine.activate policy depth) t) before = (.ok a, between) ∧
    runOn (right.evaluate policy (Subroutine.activate policy depth) t) between = (.ok b, after)

end Expr

namespace Statement

mutual

/-- The expressions in a statement, with all that they are made of. A call that
stands by itself counts as an expression. -/
def parts : Statement → List Expr
  | expression e => e.parts
  | block body => partsAll body
  | ifThen test yes => test.parts ++ yes.parts
  | ifElse test yes no => test.parts ++ (yes.parts ++ no.parts)
  | whileLoop test body => test.parts ++ body.parts
  | breakLoop | continueLoop => []
  | returnValue value | endRun value | letVar _ value => value.elim [] Expr.parts
  | constVar _ init => init.parts
  | define _ _ _ body => partsAll body
  | call callee args => (Expr.call callee args).parts

def partsAll : List Statement → List Expr
  | [] => []
  | s :: rest => s.parts ++ partsAll rest

end

end Statement

/-- Whether a failure is an error of the language: a text cannot be read, an
expression or statement cannot be carried out, or the run is stopped. -/
def Failure.isError : Failure → Bool
  | .error (.parse _) | .error (.eval _) | .error (.run _) => true
  | _ => false

/-- An ordinary failure other than an undefined remainder is an error of the
language. -/
theorem Failure.isError_of_told {e : Failure} (h : e.isTold = true) : e.isError = true := by
  cases e with
  | error e =>
      cases e with
      | parse e => rfl
      | eval e => rfl
      | run e => rfl
      | other detail => cases h
  | undefinedRemainder => cases h
  | tooDeep => cases h
  | endless => cases h

/-- Either a value or a failure that is allowed. -/
def Admits (value : Float → Prop) (failure : Failure → Prop) : Except Failure Float → Prop
  | .ok a => value a
  | .error e => failure e

/-- What may occur in runs under some conditions, such that the single operations
keep to it. Errors of the language are always allowed. Nesting too deep takes a
call, and running out of patience a run without a limit. -/
structure Regime (policy : Policy) where
  value : Float → Prop
  allows : Expr → Prop
  failure : Failure → Prop
  zero : value 0.0
  single : ∀ {a}, value a → value (Number.toSingle a)
  constant : ∀ {name a}, Constant.value? name = some a → value a
  number : ∀ {a text}, allows (.number a text) → value a
  unary : ∀ {op e a}, allows (.unary op e) → value a →
    Admits value failure (Arithmetic.settle (Arithmetic.unary op a))
  binary : ∀ {op left right a b}, allows (.binary op left right) →
    Expr.Meet policy left right a b → value a → value b →
    Admits value failure (Arithmetic.settle (Arithmetic.binary op a b))
  builtin : ∀ {name args b values}, allows (.call name args) →
    Builtin.ofName? name = some b → (∀ a ∈ values, value a) →
    ∀ run, Admits value failure (runOn (b.call policy values) run).1
  error : ∀ {e}, e.isError = true → failure e
  tooDeep : ∀ {name args}, allows (.call name args) → failure .tooDeep
  endless : policy.limit = none → failure .endless

variable {policy : Policy} {R : Regime policy}

namespace Regime

def Covers (R : Regime policy) (es : List Expr) : Prop := ∀ e ∈ es, R.allows e

/-- The parts of a tree are lists put together, so what covers the tree covers
each of its branches. -/
theorem Covers.left {es fs : List Expr} (h : R.Covers (es ++ fs)) : R.Covers es :=
  fun e he => h e (List.mem_append_left fs he)

theorem Covers.right {es fs : List Expr} (h : R.Covers (es ++ fs)) : R.Covers fs :=
  fun e he => h e (List.mem_append_right es he)

theorem Covers.tail {e : Expr} {es : List Expr} (h : R.Covers (e :: es)) : R.Covers es :=
  fun f hf => h f (List.mem_cons_of_mem e hf)

/-- A value that may be missing. -/
def Holds (R : Regime policy) (given : Option Float) : Prop := ∀ a, given = some a → R.value a

theorem holds_none : R.Holds none := fun _ h => nomatch h

theorem holds_some {a : Float} (h : R.value a) : R.Holds (some a) := by
  rintro _ ⟨⟩
  exact h

/-- Where a missing value counts as zero, it is allowed, as zero always is. -/
theorem Holds.getD {given : Option Float} (h : R.Holds given) : R.value (given.getD 0.0) := by
  cases given with
  | none => exact R.zero
  | some a => exact h a rfl

/-- Errors of the language are always allowed, so operations that fail only with
them need no thought. -/
theorem failure_of_told {α : Type} {r : Except Failure α} (h : isTold r = true) {e : Failure}
    (hr : r = .error e) : R.failure e := by
  subst hr
  exact R.error (Failure.isError_of_told h)

end Regime

/-! Tables, runs and machines under a regime. -/

structure Table.Obeys (R : Regime policy) (t : Table) : Prop where
  reachable : t.Reachable
  values : ∀ (name : String) (v : Variable), t.vars[name]? = some v → R.value v.value
  functions : ∀ (name : String) (s : Subroutine), t.functions[name]? = some s →
    R.Covers (Statement.partsAll s.body)
  procedures : ∀ (name : String) (s : Subroutine), t.procedures[name]? = some s →
    R.Covers (Statement.partsAll s.body)

/-- At least `n` turns were begun, and what was given to `end` is allowed. -/
structure Run.Obeys (R : Regime policy) (n : Nat) (run : Run) : Prop where
  steps : n ≤ run.steps
  exit : ∀ given, run.exit = some given → R.Holds given

structure Machine.Obeys (R : Regime policy) (n : Nat) (m : Machine) : Prop where
  table : m.table.Obeys R
  run : m.run.Obeys R n

namespace Table

/-- A value that is stored is rounded first. -/
theorem Obeys.insert {t : Table} (h : t.Obeys R) {name : String} {a : Float} (ha : R.value a)
    (constant : Bool)
    (hReachable : Reachable { t with vars := t.vars.insert name ⟨Number.toSingle a, constant⟩ }) :
    Obeys R { t with vars := t.vars.insert name ⟨Number.toSingle a, constant⟩ } where
  reachable := hReachable
  values := insert_entries h.values (R.single ha)
  functions := h.functions
  procedures := h.procedures

/-- An assignment stores the value, rounded, or is refused. -/
theorem Obeys.assign {t t' : Table} (h : t.Obeys R) {name : String} {a : Float} (ha : R.value a)
    (stored : t.assign name a = .ok t') : t'.Obeys R := by
  have hReachable := Reachable.assign h.reachable stored
  obtain ⟨_, _, rfl⟩ := assign_ok stored
  exact h.insert ha _ hReachable

/-- A constant is stored like any other value. -/
theorem Obeys.declareConstant {t t' : Table} (h : t.Obeys R) {name : String} {a : Float}
    (ha : R.value a) (stored : t.declareConstant name a = .ok t') : t'.Obeys R := by
  have hReachable := Reachable.declareConstant h.reachable stored
  obtain ⟨_, _, rfl⟩ := declareConstant_ok stored
  exact h.insert ha _ hReachable

/-- Here is where expressions enter a table, and they are covered by assumption. -/
theorem Obeys.declare {t t' : Table} (h : t.Obeys R) {kind : Subroutine.Kind} {s : Subroutine}
    (hs : R.Covers (Statement.partsAll s.body)) (stored : t.declare kind s = .ok t') :
    t'.Obeys R := by
  have hReachable := Reachable.declare h.reachable stored
  rcases declare_ok stored with rfl | rfl
  · exact ⟨hReachable, h.values, insert_entries h.functions hs, h.procedures⟩
  · exact ⟨hReachable, h.values, h.functions, insert_entries h.procedures hs⟩

/-- Counting a call changes no name. -/
theorem Obeys.enterCall {t : Table} (h : t.Obeys R) : t.enterCall.Obeys R :=
  ⟨.enterCall h.reachable, h.values, h.functions, h.procedures⟩

/-- Step and run: each of the assignments keeps to the regime, so all of them
do. -/
theorem Obeys.assignAll {t t' : Table} (h : t.Obeys R) {values : List (String × Float)}
    (hValues : ∀ entry ∈ values, R.value entry.2) (stored : t.assignAll values = .ok t') :
    t'.Obeys R :=
  assignAll_keeps (fun _ _ name a hEntry h stored => h.assign (hValues (name, a) hEntry) stored)
    h stored

/-- A variable keeps its value or takes that of the scope. -/
theorem Obeys.merge {t scope : Table} (h : t.Obeys R) (hScope : scope.Obeys R)
    (shadows : List String) : (t.merge scope shadows).2.Obeys R where
  reachable := .merge shadows h.reachable hScope.reachable
  values name v hv := by
    rw [merge_vars h.reachable.sound] at hv
    obtain ⟨old, hOld, rfl⟩ := Option.map_eq_some_iff.mp hv
    have hKept : R.value old.value := h.values name old hOld
    cases hGiven : scope.get? name with
    | none => exact hKept
    | some a =>
        obtain ⟨w, hw, rfl⟩ := Option.map_eq_some_iff.mp hGiven
        simp only [Variable.restored]
        split
        · exact hKept
        · exact R.single (hScope.values name w hw)
  functions := (merge_frame t scope shadows).functions ▸ h.functions
  procedures := (merge_frame t scope shadows).procedures ▸ h.procedures

end Table

/-- A contract may also recall which run its result came from. -/
theorem Attempt.Meets.recall {σ α : Type} {pre : σ → Prop} {x : Attempt σ α}
    {post : α → σ → Prop} {fail : Failure → σ → Prop} (h : Meets pre x post fail) :
    Meets pre x (fun a s' => post a s' ∧ ∃ s, pre s ∧ runOn x s = (.ok a, s')) fail := by
  intro s hs
  rcases hRun : runOn x s with ⟨e | a, s'⟩
  · exact h.error hs hRun
  · exact ⟨h.ok hs hRun, s, hs, hRun⟩

namespace Evaluation

variable {α β : Type}

/-- An evaluation that keeps its run to a regime and fails only as allowed. -/
def Obeys (R : Regime policy) (x : Evaluation α) (post : α → Prop) : Prop :=
  ∀ n, Meets (Run.Obeys R n) x (fun a run => run.Obeys R n ∧ post a) fun e _ => R.failure e

theorem obeys_pure {a : α} {post : α → Prop} (h : post a) :
    Obeys R (pure a : Evaluation α) post := fun _ => Meets.pure fun _ hRun => ⟨hRun, h⟩

theorem obeys_throw {e : Failure} {post : α → Prop} (h : R.failure e) :
    Obeys R (throw e : Evaluation α) post := fun _ => Meets.throw fun _ _ => h

/-- Evaluations compose. What the first one gives is known to the second. -/
theorem obeys_bind {x : Evaluation α} {f : α → Evaluation β} {Q : α → Prop} {post : β → Prop}
    (hFirst : Obeys R x Q) (hRest : ∀ a, Q a → Obeys R (f a) post) : Obeys R (x >>= f) post :=
  fun n => Meets.bind (hFirst n) fun a => Meets.fact fun ha => hRest a ha n

/-- A result that is at hand needs its value and its failure to be allowed, and
nothing else. -/
theorem obeys_ofExcept {r : Except Failure α} {post : α → Prop} (hOk : ∀ a, r = .ok a → post a)
    (hError : ∀ e, r = .error e → R.failure e) : Obeys R (ofExcept r) post := by
  cases r with
  | ok a => exact obeys_pure (hOk a rfl)
  | error e => exact obeys_throw (hError e rfl)

theorem obeys_admits {r : Except Failure Float} (h : Admits R.value R.failure r) :
    Obeys R (ofExcept r) R.value := by
  cases r with
  | ok a => exact obeys_pure h
  | error e => exact obeys_throw h

end Evaluation

/-- Subroutines are carried out in keeping with the regime, if nesting too deep
is allowed at all. -/
def Activation.Obeys (R : Regime policy) (activate : Activation) : Prop :=
  R.failure .tooDeep → ∀ (s : Subroutine) (args : List Float) (t : Table),
    R.Covers (Statement.partsAll s.body) → (∀ a ∈ args, R.value a) → t.Obeys R →
    Evaluation.Obeys R (activate s args t) fun result => result.1.Obeys R ∧ R.Holds result.2

namespace Expr

open Evaluation

/-- A name has the value that the table or the language gives it, and either is
allowed. An absent name is an error of the language. -/
theorem obeys_lookup {t : Table} (ht : t.Obeys R) (x : String) :
    Obeys R (Evaluation.ofExcept (lookup t x)) R.value := by
  refine obeys_ofExcept (fun a ha => ?_) fun _ => Regime.failure_of_told (lookup_told t x)
  unfold lookup at ha
  split at ha
  · next value _ hGiven =>
      cases ha
      obtain ⟨v, hv, rfl⟩ := Option.map_eq_some_iff.mp hGiven
      exact ht.values x v hv
  · next value _ hGlobal =>
      cases ha
      exact R.constant hGlobal
  · cases ha

variable {depth : Nat}

mutual

/-- The induction is on the expression. Operands are evaluated on one table,
from which the two values of an operation are known to meet. -/
theorem obeys_evaluate (hActivate : Activation.Obeys R (Subroutine.activate policy depth))
    {t : Table} (ht : t.Obeys R) (e : Expr) (he : R.Covers e.parts) :
    Obeys R (e.evaluate policy (Subroutine.activate policy depth) t) R.value := by
  match e with
  | number value _ => exact obeys_pure (R.number (he _ List.mem_cons_self))
  | name x => exact obeys_lookup ht x
  | unary op e =>
      refine obeys_bind (obeys_evaluate hActivate ht e he.tail) fun a ha => ?_
      exact obeys_admits (R.unary (he _ List.mem_cons_self) ha)
  | binary op left right =>
      have hLeft := obeys_evaluate hActivate ht left he.tail.left
      have hRight := obeys_evaluate hActivate ht right he.tail.right
      have hOperands : Obeys R (do
          let a ← left.evaluate policy (Subroutine.activate policy depth) t
          let b ← right.evaluate policy (Subroutine.activate policy depth) t
          Evaluation.ofExcept (Arithmetic.settle (Arithmetic.binary op a b))) R.value := by
        intro n
        -- The operator may be allowed for the sake of what its operands come to.
        refine Meets.bind (hLeft n).recall fun a => ?_
        refine Meets.bind ((hRight n).weaken (fun _ h => h.1.1) (fun _ _ h => h)
          fun _ _ h => h).recall fun b => ?_
        rintro after ⟨⟨hAfter, hb⟩, between, ⟨⟨_, ha⟩, before, _, hBefore⟩, hBetween⟩
        have hMeet : Meet policy left right a b :=
          ⟨depth, t, before, between, after, ht.reachable, hBefore, hBetween⟩
        exact obeys_admits (R.binary (he _ List.mem_cons_self) hMeet ha hb) n after hAfter
      cases op with
      | assign =>
          have hTarget : Obeys R (Evaluation.ofExcept (checkTarget t .variableNotFound left))
              fun _ => True := by
            refine obeys_ofExcept (fun _ _ => trivial) fun _ => ?_
            exact Regime.failure_of_told (checkTarget_told t .variableNotFound left)
          exact obeys_bind hTarget fun _ _ => hRight
      | _ => exact hOperands
  | call callee args =>
      have hArgs := obeys_evaluateAll hActivate ht args he.tail
      have hCall := he _ List.mem_cons_self
      unfold evaluate
      cases hBuiltin : Builtin.ofName? callee with
      | some builtin =>
          refine obeys_bind hArgs fun values hValues n run hRun => ?_
          have hResult := R.builtin hCall hBuiltin hValues run
          have hDeeds := (Builtin.inert_call policy builtin values run).1
          rcases hFinal : runOn (builtin.call policy values) run with ⟨e | a, final⟩ <;>
            rw [hFinal] at hResult hDeeds
          · exact hResult
          · obtain ⟨hSteps, hExit⟩ := Prod.mk.inj hDeeds
            exact ⟨⟨hSteps ▸ hRun.steps, hExit ▸ hRun.exit⟩, hResult⟩
      | none =>
          cases hFunction : t.functions[callee]? with
          | some function =>
              refine obeys_bind hArgs fun values hValues => ?_
              refine obeys_bind (hActivate (R.tooDeep hCall) function values t
                (ht.functions callee function hFunction) hValues ht) fun result hResult => ?_
              exact obeys_pure hResult.2.getD
          | none => exact obeys_throw (R.error (Failure.isError_of_told (uncallable_told t callee)))

/-- All arguments of a call have allowed values. -/
theorem obeys_evaluateAll (hActivate : Activation.Obeys R (Subroutine.activate policy depth))
    {t : Table} (ht : t.Obeys R) (es : List Expr) (hes : R.Covers (partsAll es)) :
    Obeys R (evaluateAll policy (Subroutine.activate policy depth) t es)
      fun values => ∀ a ∈ values, R.value a := by
  match es with
  | [] => exact obeys_pure fun _ h => absurd h List.not_mem_nil
  | e :: rest =>
      refine obeys_bind (obeys_evaluate hActivate ht e hes.left) fun a ha => ?_
      refine obeys_bind (obeys_evaluateAll hActivate ht rest hes.right) fun values hValues => ?_
      refine obeys_pure fun b hb => ?_
      rcases List.mem_cons.mp hb with rfl | hRest
      · exact ha
      · exact hValues b hRest

end

end Expr

namespace Execution

variable {α β : Type}

/-- An execution that keeps its machine to a regime and fails only as allowed.
The table keeps to the regime even then. -/
def Obeys (R : Regime policy) (x : Execution α) (post : α → Prop) : Prop :=
  ∀ n, Meets (Machine.Obeys R n) x (fun a m => m.Obeys R n ∧ post a)
    fun e m => R.failure e ∧ m.table.Obeys R

theorem obeys_pure {a : α} {post : α → Prop} (h : post a) :
    Obeys R (pure a : Execution α) post := fun _ => Meets.pure fun _ hm => ⟨hm, h⟩

theorem obeys_throw {e : Failure} {post : α → Prop} (h : e.isError = true) :
    Obeys R (throw e : Execution α) post := fun _ => Meets.throw fun _ hm => ⟨R.error h, hm.table⟩

/-- Executions compose. Of one that fails, the table still keeps to the regime. -/
theorem obeys_bind {x : Execution α} {f : α → Execution β} {Q : α → Prop} {post : β → Prop}
    (hFirst : Obeys R x Q) (hRest : ∀ a, Q a → Obeys R (f a) post) : Obeys R (x >>= f) post :=
  fun n => Meets.bind (hFirst n) fun a => Meets.fact fun ha => hRest a ha n

/-- The machine may be looked at, and it keeps to the regime. -/
theorem obeys_get : Obeys R (get : Execution Machine) fun m => m.Obeys R 0 :=
  fun _ _ hm => ⟨hm, hm.table, Nat.zero_le _, hm.run.exit⟩

theorem obeys_halted : Obeys R halted fun _ => True := fun _ _ hm => ⟨hm, trivial⟩

/-- An evaluation has no access to the table but for reading. -/
theorem obeys_reading {f : Table → Evaluation α} {post : α → Prop}
    (h : ∀ t, t.Obeys R → Evaluation.Obeys R (f t) post) : Obeys R (reading f) post := by
  intro n m hm
  have hValue := h m.table hm.table n m.run hm.run
  rw [runOn_reading]
  rcases hRun : runOn (f m.table) m.run with ⟨e | a, run⟩ <;> rw [hRun] at hValue
  · exact ⟨hValue, hm.table⟩
  · exact ⟨⟨hm.table, hValue.1⟩, hValue.2⟩

/-- An update is refused with an error of the language, or it has to keep the
table to the regime. -/
theorem obeys_updating {f : Table → Except Failure Table}
    (hKeeps : ∀ t t', t.Obeys R → f t = .ok t' → t'.Obeys R) (hTold : ∀ t, isTold (f t) = true) :
    Obeys R (updating f) fun _ => True := by
  intro n m hm
  rw [runOn_updating]
  cases hResult : f m.table with
  | ok table => exact ⟨⟨hKeeps m.table table hm.table hResult, hm.run⟩, trivial⟩
  | error e => exact ⟨Regime.failure_of_told (hTold m.table) hResult, hm.table⟩

/-- At the end of a scope both tables keep to the regime, so whatever is copied
does. -/
theorem obeys_merging {scope : Table} (hScope : scope.Obeys R) (shadows : List String) :
    Obeys R (merging scope shadows) fun _ => True := by
  intro n m hm
  rw [runOn_merging, Table.merge_isOk hm.table.reachable.sound]
  exact ⟨⟨hm.table.merge hScope shadows, hm.run⟩, trivial⟩

/-- A body in a scope, whether it succeeds and is merged or fails and is
dropped. -/
theorem obeys_inScope {body : Execution α} {post : α → Prop} (h : Obeys R body post)
    (shadows : List String) : Obeys R (inScope shadows body) post := by
  intro n m hm
  have hBody := h n m hm
  rw [runOn_inScope]
  rcases hRun : runOn body m with ⟨e | a, inner⟩ <;> rw [hRun] at hBody
  · exact ⟨hBody.1, hm.table⟩
  · simp only [leaving, Table.merge_isOk hm.table.reachable.sound]
    exact ⟨⟨hm.table.merge hBody.1.table shadows, hBody.1.run⟩, hBody.2⟩

/-- A turn that is counted stays within the limit. -/
theorem tick_obeys (R : Regime policy) (n : Nat) :
    Meets (Machine.Obeys R n) (tick policy)
      (fun _ m => m.Obeys R (n + 1) ∧ policy.Allows (n + 1))
      fun e m => R.failure e ∧ m.table.Obeys R := by
  intro m hm
  have hCounted : (counted m).Obeys R (n + 1) :=
    ⟨hm.table, Nat.succ_le_succ hm.run.steps, hm.run.exit⟩
  rcases hRun : runOn (tick policy) m with ⟨e | _, after⟩
  · rw [runOn_tick] at hRun
    split at hRun
    · split at hRun
      · cases hRun
        exact ⟨R.error rfl, hm.table⟩
      · cases hRun
    · cases hRun
  · obtain ⟨rfl, hWithin⟩ := tick_ok hRun
    refine ⟨hCounted, fun limit hLimit => ?_⟩
    have hSteps := hm.run.steps
    have hCount := hWithin limit hLimit
    omega

/-- A turn that was taken has been counted, and one that was not leaves the
count as it was. -/
theorem turn_obeys {test : Execution Float} {body : Execution Outcome}
    (hTest : Obeys R test fun _ => True) (hBody : Obeys R body fun o => R.Holds o.value) (n : Nat) :
    Meets (Machine.Obeys R n) (turn policy test body)
      (fun taken m => match taken with
        | none => m.Obeys R n
        | some o => (m.Obeys R (n + 1) ∧ policy.Allows (n + 1)) ∧ R.Holds o.value)
      fun e m => R.failure e ∧ m.table.Obeys R := by
  refine Meets.bind (obeys_halted n) fun ended => Meets.fact fun _ => ?_
  split
  · exact Meets.pure fun _ hm => hm
  · refine Meets.bind (hTest n) fun truth => Meets.fact fun _ => ?_
    split
    · refine Meets.bind (tick_obeys R n) fun _ => Meets.fact fun hAllows => ?_
      refine Meets.bind (hBody (n + 1)) fun o => Meets.fact fun ho => ?_
      exact Meets.pure fun _ hm => ⟨⟨hm, hAllows⟩, ho⟩
    · exact Meets.pure fun _ hm => hm

/-- The induction is on the turns that are left. Under a limit they reach beyond
it, and the last turn that was taken stayed within it; so it is only without a
limit that none are left. -/
theorem loop_obeys {test : Execution Float} {body : Execution Outcome}
    (hTest : Obeys R test fun _ => True) (hBody : Obeys R body fun o => R.Holds o.value)
    (turns : Nat) {n : Nat} (hEnough : policy.Exceeds (n + turns))
    (hTaken : turns = 0 → policy.Allows n) {value : Option Float} (hValue : R.Holds value) :
    Meets (Machine.Obeys R n) (loop (turn policy test body) turns value)
      (fun o m => m.Obeys R n ∧ R.Holds o.value) fun e m => R.failure e ∧ m.table.Obeys R := by
  induction turns generalizing n value with
  | zero =>
      refine Meets.throw fun m hm => ⟨R.endless ?_, hm.table⟩
      cases hLimit : policy.limit with
      | none => rfl
      | some limit =>
          have hLow := hTaken rfl limit hLimit
          have hHigh := hEnough limit hLimit
          omega
  | succ turns ih =>
      refine Meets.bind (turn_obeys hTest hBody n) fun taken => ?_
      cases taken with
      | none => exact Meets.pure fun _ hm => ⟨hm, hValue⟩
      | some o =>
          have hFewer {m : Machine} (hm : m.Obeys R (n + 1)) : m.Obeys R n :=
            ⟨hm.table, Nat.le_of_succ_le hm.run.steps, hm.run.exit⟩
          -- One turn more was begun and one less is left, so their sum still exceeds the limit.
          have hNext {value : Option Float} (hValue : R.Holds value) :
              Meets (fun m => m.Obeys R (n + 1) ∧ policy.Allows (n + 1))
                (loop (turn policy test body) turns value)
                (fun o m => m.Obeys R n ∧ R.Holds o.value)
                fun e m => R.failure e ∧ m.table.Obeys R := by
            refine Meets.fact fun hAllows => ?_
            refine (ih (fun limit hLimit => ?_) (fun _ => hAllows) hValue).weaken (fun _ hm => hm)
              (fun _ _ h => ⟨hFewer h.1, h.2⟩) fun _ _ h => h
            have hReach := hEnough limit hLimit
            omega
          refine Meets.fact fun ho => ?_
          obtain ⟨given, flow⟩ := o
          have hLatest : R.Holds (given <|> value) := by
            cases given with
            | none => exact hValue
            | some a => exact ho
          cases flow with
          | normal => exact hNext hLatest
          | breaking => exact Meets.pure fun _ hm => ⟨hFewer hm.1, hLatest⟩
          | continuing => exact hNext hLatest
          | returning => exact Meets.pure fun _ hm => ⟨hFewer hm.1, ho⟩

end Execution

namespace Statement

open Execution

variable {depth : Nat}

theorem obeys_value (hActivate : Activation.Obeys R (Subroutine.activate policy depth)) {e : Expr}
    (he : R.Covers e.parts) :
    Obeys R (reading fun t => e.evaluate policy (Subroutine.activate policy depth) t) R.value :=
  obeys_reading fun _ ht => e.obeys_evaluate hActivate ht he

/-- A value that is left out is allowed. -/
theorem obeys_optional (hActivate : Activation.Obeys R (Subroutine.activate policy depth))
    {e : Option Expr} (he : R.Covers (e.elim [] Expr.parts)) :
    Obeys R (execute.optional policy (Subroutine.activate policy depth) e) R.Holds := by
  cases e with
  | none => exact obeys_pure Regime.holds_none
  | some e =>
      exact obeys_bind (obeys_value hActivate he) fun a ha => obeys_pure (Regime.holds_some ha)

theorem obeys_assign {name : String} {a : Float} (ha : R.value a) :
    Obeys R (updating fun t => t.assign name a) fun _ => True :=
  obeys_updating (fun _ _ ht => ht.assign ha) fun t => t.assign_told name a

/-- An expression by itself, where an assignment also stores. -/
theorem obeys_perform (hActivate : Activation.Obeys R (Subroutine.activate policy depth)) {e : Expr}
    (he : R.Covers e.parts) :
    Obeys R (e.perform policy (Subroutine.activate policy depth)) fun o => R.Holds o.value := by
  unfold Expr.perform
  split
  · next x right =>
      refine obeys_bind (Q := fun _ => True) (obeys_reading fun t ht => ?_) fun _ _ => ?_
      · refine Evaluation.obeys_ofExcept (fun _ _ => trivial) fun _ => ?_
        exact Regime.failure_of_told (Expr.checkTarget_told t .undeclaredVariable (.name x))
      · refine obeys_bind (obeys_value hActivate he.tail.right) fun a ha => ?_
        exact obeys_bind (obeys_assign ha) fun _ _ => obeys_pure (Regime.holds_some ha)
  · exact obeys_bind (obeys_value hActivate he) fun a ha => obeys_pure (Regime.holds_some ha)

mutual

/-- The induction is on the statement, for calls that may go a given depth. -/
theorem obeys_execute (hActivate : Activation.Obeys R (Subroutine.activate policy depth))
    (s : Statement) (hs : R.Covers s.parts) :
    Obeys R (s.execute policy (Subroutine.activate policy depth)) fun o => R.Holds o.value := by
  match s with
  | expression e => exact obeys_perform hActivate hs
  | block body => exact obeys_inScope (obeys_executeAll hActivate body hs Regime.holds_none) _
  | ifThen test yes =>
      refine obeys_bind (obeys_value hActivate hs.left) fun truth _ => ?_
      split
      · exact obeys_inScope (obeys_execute hActivate yes hs.right) _
      · exact obeys_pure (Regime.holds_some R.zero)
  | ifElse test yes no =>
      refine obeys_bind (obeys_value hActivate hs.left) fun truth _ => ?_
      split
      · exact obeys_inScope (obeys_execute hActivate yes hs.right.left) _
      · exact obeys_inScope (obeys_execute hActivate no hs.right.right) _
  | whileLoop test body =>
      have hTest : Obeys R (reading fun t =>
          test.evaluate policy (Subroutine.activate policy depth) t) fun _ => True :=
        fun n => (obeys_value hActivate hs.left n).weaken (fun _ h => h)
          (fun _ _ h => ⟨h.1, trivial⟩) fun _ _ h => h
      have hBody := obeys_inScope (obeys_execute hActivate body hs.right) body.shadows
      have hTurns : policy.turns = 0 → policy.limit = none := by
        unfold Policy.turns
        cases policy.limit with
        | none => exact fun _ => rfl
        | some limit => exact fun h => nomatch h
      intro n
      refine loop_obeys hTest hBody policy.turns (policy.exceeds_turns n) (fun h limit hLimit => ?_)
        Regime.holds_none
      rw [hTurns h] at hLimit
      cases hLimit
  | breakLoop => exact obeys_pure Regime.holds_none
  | continueLoop => exact obeys_pure Regime.holds_none
  | returnValue e =>
      refine obeys_bind obeys_get fun m _ => ?_
      split
      · exact obeys_throw rfl
      · exact obeys_bind (obeys_optional hActivate hs) fun given hGiven => obeys_pure hGiven
  | endRun e =>
      refine obeys_bind (obeys_optional hActivate hs) fun given hGiven => ?_
      refine obeys_bind (Q := fun _ => True) (fun n m hm => ?_) fun _ _ => obeys_pure hGiven
      refine ⟨⟨hm.table, hm.run.steps, ?_⟩, trivial⟩
      rintro _ ⟨⟩
      exact hGiven
  | letVar name init =>
      refine obeys_bind (obeys_optional hActivate hs) fun given hGiven => ?_
      exact obeys_bind (obeys_assign hGiven.getD) fun _ _ =>
        obeys_pure (Regime.holds_some hGiven.getD)
  | constVar name init =>
      refine obeys_bind (obeys_value hActivate hs) fun a ha => ?_
      refine obeys_bind (obeys_updating (fun _ _ ht => ht.declareConstant ha) fun t => ?_)
        fun _ _ => obeys_pure (Regime.holds_some ha)
      exact t.declareConstant_told name a
  | define kind name params body =>
      refine obeys_bind (obeys_updating (fun _ _ ht => ht.declare hs) fun t => ?_)
        fun _ _ => obeys_pure Regime.holds_none
      exact t.declare_told kind _
  | call name args =>
      refine obeys_bind obeys_get fun m hm => ?_
      cases hProcedure : m.table.procedures[name]? with
      | none =>
          exact obeys_bind (obeys_value hActivate hs) fun a ha => obeys_pure (Regime.holds_some ha)
      | some procedure =>
          have hBody := hm.table.procedures name procedure hProcedure
          have hDeep := R.tooDeep (hs _ List.mem_cons_self)
          refine obeys_bind (obeys_reading fun t ht =>
            Expr.obeys_evaluateAll hActivate ht args hs.tail) fun values hValues => ?_
          refine obeys_bind (obeys_reading fun t ht =>
            hActivate hDeep procedure values t hBody hValues ht) fun result hResult => ?_
          exact obeys_bind (obeys_merging hResult.1 _) fun _ _ => obeys_pure Regime.holds_none

/-- Statements one after another hand the value of the last one on. -/
theorem obeys_executeAll (hActivate : Activation.Obeys R (Subroutine.activate policy depth))
    (body : List Statement) (hBody : R.Covers (partsAll body)) {value : Option Float}
    (hValue : R.Holds value) :
    Obeys R (executeAll policy (Subroutine.activate policy depth) body value)
      fun o => R.Holds o.value := by
  match body with
  | [] => exact obeys_pure hValue
  | s :: rest =>
      refine obeys_bind (obeys_execute hActivate s hBody.left) fun o ho => ?_
      have hLatest : R.Holds
          (if o.value.isSome ∨ o.flow = .returning then o.value else value) := by
        split
        · exact ho
        · exact hValue
      refine obeys_bind obeys_halted fun ended _ => ?_
      split
      · exact obeys_pure hLatest
      · exact obeys_executeAll hActivate rest hBody.right hLatest

end

end Statement

namespace Subroutine

/-- The table and the value that a call hands back keep to the regime. -/
theorem obeys_runBody {scope : Table} (hScope : scope.Obeys R) {body : Execution Outcome}
    (h : Execution.Obeys R body fun o => R.Holds o.value) :
    Evaluation.Obeys R (activate.runBody scope body)
      fun result => result.2.Obeys R ∧ R.Holds result.1.value := by
  intro n run hRun
  have hBody := h n ⟨scope, run⟩ ⟨hScope, hRun⟩
  rw [runBody_eq_handedBack]
  rcases hFinal : runOn body ⟨scope, run⟩ with ⟨e | o, m⟩ <;> rw [hFinal] at hBody
  · exact hBody.1
  · exact ⟨hBody.1.run, hBody.1.table, hBody.2⟩

/-- The induction is on how deep calls may be nested. -/
theorem obeys_activate (R : Regime policy) (depth : Nat) :
    Activation.Obeys R (Subroutine.activate policy depth) := by
  induction depth with
  | zero => exact fun hDeep s args t _ _ _ => Evaluation.obeys_throw hDeep
  | succ depth ih =>
      intro hDeep s args t hs hArgs ht
      unfold Subroutine.activate
      split
      · exact Evaluation.obeys_throw (R.error rfl)
      · have hZip (entry : String × Float) (hEntry : entry ∈ s.params.zip args) :
            R.value entry.2 := hArgs entry.2 (List.of_mem_zip hEntry).2
        refine Evaluation.obeys_bind (Q := fun scope => scope.Obeys R)
          (Evaluation.obeys_ofExcept (fun scope => ht.enterCall.assignAll hZip) fun _ => ?_)
          fun scope hScope => ?_
        · exact Regime.failure_of_told (Table.assignAll_told t.enterCall (s.params.zip args))
        · refine Evaluation.obeys_bind
            (obeys_runBody hScope (Statement.obeys_execute ih (.block s.body) hs))
            fun result hResult => ?_
          obtain ⟨⟨given, flow⟩, final⟩ := result
          cases flow with
          | normal => exact Evaluation.obeys_pure hResult
          | breaking => exact Evaluation.obeys_throw (R.error rfl)
          | continuing => exact Evaluation.obeys_throw (R.error rfl)
          | returning => exact Evaluation.obeys_pure hResult

end Subroutine

/-- Induction over the statements of a program. Each of them leaves a machine
from which the rest starts. -/
theorem Program.obeys_execute (R : Regime policy) (p : Program)
    (hp : R.Covers (Statement.partsAll p)) {value : Option Float} (hValue : R.Holds value) :
    Execution.Obeys R (p.execute policy value) R.Holds := by
  induction p generalizing value with
  | nil => exact Execution.obeys_pure hValue
  | cons s rest ih =>
      refine Execution.obeys_bind (Statement.obeys_execute
        (Subroutine.obeys_activate R policy.depth) s hp.left) fun o ho => ?_
      refine Execution.obeys_bind Execution.obeys_get fun m hm => ?_
      obtain ⟨given, flow⟩ := o
      cases hExit : m.run.exit with
      | some value => exact Execution.obeys_pure (hm.run.exit value hExit)
      | none =>
          cases flow with
          | normal => exact ih hp.right ho
          | breaking => exact Execution.obeys_throw rfl
          | continuing => exact Execution.obeys_throw rfl
          | returning => exact ih hp.right ho

end Reckoner
