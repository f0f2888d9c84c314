import Reckoner.Proofs.Effect
import Mathlib.Tactic.Common

/-! Scope discipline. Blocks, branches, loops and calls reach their table only
by copying a scope back, so they can change values but neither names, constants
nor subroutines, and they cannot change what their bodies declare. -/
namespace Reckoner

open Attempt

/-- At most the value of one name differs, and that name was there before. -/
structure Table.DiffersAt (x : String) (t t' : Table) : Prop where
  names : ∀ name, t'.contains name = t.contains name
  constants : ∀ name, t'.isConstant name = t.isConstant name
  functions : t'.functions = t.functions
  procedures : t'.procedures = t.procedures
  callDepth : t'.callDepth = t.callDepth
  values : ∀ name, name ≠ x → t'.get? name = t.get? name

theorem Table.store_differsAt {t : Table} {x : String} (hKnown : t.contains x = true)
    (value : Float) : t.DiffersAt x (t.store x value) where
  names name := by
    rw [store_contains]
    by_cases h : x = name
    · simp [← h, hKnown]
    · simp [h]
  constants name := store_isConstant t x name value
  functions := rfl
  procedures := rfl
  callDepth := rfl
  values name h := store_get?_of_ne h.symm value

namespace Statement

/-- The statements that work in a scope of their own. -/
def isScoped : Statement → Bool
  | block .. | ifThen .. | ifElse .. | whileLoop .. | call .. => true
  | _ => false

/-- Whether the test of a conditional holds on a machine, if it has a value. -/
def holds? (policy : Policy) (test : Expr) (m : Machine) : Option Bool :=
  match runOn (test.evaluate policy policy.activation m.table) m.run with
  | (.ok truth, _) => some (Arithmetic.isTrue truth)
  | (.error _, _) => none

/-- The names that stay behind in the scope of a statement: those that its body
declares, and for a procedure also its parameters. The body of a conditional is
the branch that it takes on the machine, which may be none. -/
def localNames (policy : Policy) (m : Machine) : Statement → List String
  | block body => shadows (block body)
  | ifThen test yes =>
    match holds? policy test m with
    | some true => yes.shadows
    | _ => []
  | ifElse test yes no =>
    match holds? policy test m with
    | some true => yes.shadows
    | some false => no.shadows
    | none => []
  | whileLoop _ body => body.shadows
  | call name _ =>
    match m.table.procedures[name]? with
    | some procedure => procedure.params ++ shadows (block procedure.body)
    | none => []
  | _ => []

open Execution

/-- Whether or not the body succeeds, and whatever it does to its scope. -/
theorem inScope_frame {α : Type} (shadows : List String) (body : Execution α) (m : Machine) :
    m.table.Frame shadows (runOn (inScope shadows body) m).2.table := by
  rw [runOn_inScope]
  rcases runOn body m with ⟨e | a, inner⟩
  · exact Table.Frame.refl shadows m.table
  · exact Table.merge_frame m.table inner.table shadows

/-- Each turn of a loop stays within the frame, so that it can be continued by
another. -/
theorem turn_frame (t : Table) (policy : Policy) (shadows : List String)
    (test : Table → Evaluation Float) (body : Execution Outcome) :
    Meets (fun m => t.Frame shadows m.table)
      (Execution.turn policy (reading test) (inScope shadows body))
      (fun _ m => t.Frame shadows m.table) (fun _ m => t.Frame shadows m.table) := by
  refine Meets.bind (meets_halted (fun m => t.Frame shadows m.table) _) fun halted => ?_
  split
  · exact Meets.pure fun _ hm => hm
  · refine Meets.bind (meets_reading (t.Frame shadows) test) fun truth => ?_
    split
    · refine Meets.bind (meets_tick (t.Frame shadows) policy) fun _ => ?_
      refine Meets.bind (Q := fun _ (m : Machine) => t.Frame shadows m.table) ?_ fun outcome => ?_
      · exact Meets.of_state fun m hm => hm.trans (inScope_frame shadows body m)
      · exact Meets.pure fun _ hm => hm
    · exact Meets.pure fun _ hm => hm

/-- The machine on which a conditional goes on once its test has a value. -/
theorem runOn_test (policy : Policy) (test : Expr) (next : Float → Execution Outcome)
    (m : Machine) :
    runOn ((reading fun t => test.evaluate policy policy.activation t) >>= next) m =
      match runOn (test.evaluate policy policy.activation m.table) m.run with
      | (.ok truth, run) => runOn (next truth) { m with run := run }
      | (.error e, run) => (.error e, { m with run := run }) := by
  rw [runOn_bind, runOn_reading]
  rcases runOn (test.evaluate policy policy.activation m.table) m.run with ⟨e | truth, run⟩ <;>
    rfl

/-- Without the branch nothing is local, and nothing is changed either. -/
theorem ifThen_frame (policy : Policy) (test : Expr) (yes : Statement) (m : Machine) :
    m.table.Frame ((ifThen test yes).localNames policy m)
      ((ifThen test yes).run policy m).2.table := by
  change m.table.Frame _ (runOn ((ifThen test yes).execute policy policy.activation) m).2.table
  rw [execute, runOn_test]
  simp only [localNames, holds?]
  rcases runOn (test.evaluate policy policy.activation m.table) m.run with ⟨e | truth, run⟩
  · exact Table.Frame.refl [] m.table
  · dsimp only
    cases Arithmetic.isTrue truth with
    | true => exact inScope_frame yes.shadows _ { m with run := run }
    | false => exact Table.Frame.refl [] m.table

/-- The names that stay behind are those of the branch that was taken. -/
theorem ifElse_frame (policy : Policy) (test : Expr) (yes no : Statement) (m : Machine) :
    m.table.Frame ((ifElse test yes no).localNames policy m)
      ((ifElse test yes no).run policy m).2.table := by
  change m.table.Frame _ (runOn ((ifElse test yes no).execute policy policy.activation) m).2.table
  rw [execute, runOn_test]
  simp only [localNames, holds?]
  rcases runOn (test.evaluate policy policy.activation m.table) m.run with ⟨e | truth, run⟩
  · exact Table.Frame.refl [] m.table
  · dsimp only
    cases Arithmetic.isTrue truth with
    | true => exact inScope_frame yes.shadows _ { m with run := run }
    | false => exact inScope_frame no.shadows _ { m with run := run }

/-- All turns have the same body, and so the same names. -/
theorem whileLoop_frame (policy : Policy) (test : Expr) (body : Statement) (m : Machine) :
    m.table.Frame body.shadows ((whileLoop test body).run policy m).2.table := by
  have hLoop := meets_loop (turn_frame m.table policy body.shadows
    (fun t => test.evaluate policy policy.activation t)
    (body.execute policy policy.activation)) (fun _ hm => hm) policy.turns none
  exact hLoop.state (Table.Frame.refl body.shadows m.table)

theorem merging_frame (t scope : Table) (shadows : List String) :
    Meets (fun m => m.table = t) (merging scope shadows) (fun _ m => t.Frame shadows m.table)
      (fun _ m => t.Frame shadows m.table) := by
  apply Meets.of_state
  rintro m rfl
  rw [runOn_merging]
  exact Table.merge_frame m.table scope shadows

/-- A procedure is copied back without its parameters. A function, or a call
that is refused, leaves the table as it was. -/
theorem call_frame (policy : Policy) (name : String) (args : List Expr) (m : Machine) :
    m.table.Frame ((call name args).localNames policy m)
      ((call name args).run policy m).2.table := by
  have hCall : Meets (fun m' => m'.table = m.table)
      ((call name args).execute policy policy.activation)
      (fun _ m' => m.table.Frame ((call name args).localNames policy m) m'.table)
      (fun _ m' => m.table.Frame ((call name args).localNames policy m) m'.table) := by
    have hSame {shadows : List String} {m' : Machine} (h : m'.table = m.table) :
        m.table.Frame shadows m'.table := by
      rw [h]
      exact Table.Frame.refl shadows m.table
    refine Meets.bind (meets_get m.table _) fun seen => Meets.fact fun hSeen => ?_
    rw [hSeen, localNames]
    cases m.table.procedures[name]? with
    | none =>
        refine Meets.bind ((meets_reading (· = m.table) _).weakenFail fun _ _ => hSame)
          fun value => ?_
        exact Meets.pure fun _ => hSame
    | some procedure =>
        refine Meets.bind ((meets_reading (· = m.table) _).weakenFail fun _ _ => hSame)
          fun values => ?_
        refine Meets.bind ((meets_reading (· = m.table) _).weakenFail fun _ _ => hSame)
          fun result => ?_
        refine Meets.bind (merging_frame m.table result.1 _) fun _ => ?_
        exact Meets.pure fun _ h => h
  exact hCall.state rfl

/-- An expression that stands by itself stores under the target of the
assignment at its root, if there is one. -/
theorem expression_differs (policy : Policy) (e : Expr) (m : Machine) :
    ((expression e).run policy m).2.table = m.table ∨
      ∃ x right, e = .binary .assign (.name x) right ∧
        m.table.DiffersAt x ((expression e).run policy m).2.table := by
  have hPerform : Meets (fun m' => m'.table = m.table) (e.perform policy policy.activation)
      (fun _ m' => m'.table = m.table ∨ ∃ x right, e = .binary .assign (.name x) right ∧
        m.table.DiffersAt x m'.table)
      (fun _ m' => m'.table = m.table ∨ ∃ x right, e = .binary .assign (.name x) right ∧
        m.table.DiffersAt x m'.table) := by
    refine (meets_perform m.table e).weaken (fun _ h => h) ?_ fun _ _ h => .inl h
    rintro _ m' (h | ⟨x, right, value, hShape, hKnown, hStored⟩)
    · exact .inl h
    · refine .inr ⟨x, right, hShape, ?_⟩
      obtain ⟨_, _, hTable⟩ := Table.assign_ok hStored
      rw [hTable]
      exact Table.store_differsAt hKnown value
  exact hPerform.state rfl

/-- A statement with a scope of its own changes no more than values, and none of
a constant or of a name that its scope declares. -/
theorem scoped_frame (policy : Policy) {s : Statement} (hScoped : s.isScoped = true)
    (m : Machine) : m.table.Frame (s.localNames policy m) (s.run policy m).2.table := by
  cases s with
  | block body => exact inScope_frame (shadows (block body)) _ m
  | ifThen test yes => exact ifThen_frame policy test yes m
  | ifElse test yes no => exact ifElse_frame policy test yes no m
  | whileLoop test body => exact whileLoop_frame policy test body m
  | call name args => exact call_frame policy name args m
  | _ => cases hScoped

end Statement

/-- On every table, and whether the statement succeeds or fails. The names that
keep their values are found by reading the body, not by running it. -/
theorem scope_discipline (policy : Policy) (m : Machine) :
    (∀ s : Statement, s.isScoped = true →
      m.table.Frame (s.localNames policy m) (s.run policy m).2.table) ∧
    (∀ e : Expr, ((Statement.expression e).run policy m).2.table = m.table ∨
      ∃ x right, e = .binary .assign (.name x) right ∧
        m.table.DiffersAt x ((Statement.expression e).run policy m).2.table) :=
  ⟨fun _ hScoped => Statement.scoped_frame policy hScoped m,
    fun e => Statement.expression_differs policy e m⟩

/-- Declares `raise(a)`, which adds its argument to `x` by way of a `b` of its own. -/
def raising : Program :=
  [.letVar "x" (some (.number 1 "1")), .letVar "b" (some (.number 7 "7")),
   .define .procedure "raise" ["a"]
     [.letVar "b" (some (.name "a")),
      .expression (.binary .assign (.name "x") (.binary .add (.name "x") (.name "b")))]]

/-- The call changes `x` and neither the `b` outside nor the names there are. -/
theorem scope_discipline_raise :
    let policy := Policy.usual none fun _ => 0.5
    let m := (raising.run policy ⟨Table.empty, {}⟩).2
    let s := Statement.call "raise" [.number 2 "2"]
    s.isScoped = true ∧ s.localNames policy m = ["a", "b"] ∧
    (s.run policy m).2.table.items = [("b", 7), ("x", 3)] ∧
    m.table.Frame ["a", "b"] (s.run policy m).2.table := by
  intro policy m s
  have hLocal : s.localNames policy m = ["a", "b"] := by decide +kernel
  refine ⟨rfl, hLocal, by decide +kernel, ?_⟩
  rw [← hLocal]
  exact (scope_discipline policy m).1 s rfl

end Reckoner
