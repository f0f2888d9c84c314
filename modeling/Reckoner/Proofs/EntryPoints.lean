import Reckoner.Proofs.Contract
import Reckoner.Proofs.CopyBack
import Reckoner.Proofs.StatementLookahead
import Mathlib.Tactic.Common

/-! A text that is an expression can be evaluated, and it can be carried out as a
program. The two come to the same thing, except where an assignment at the root
has nothing to store in. -/
namespace Reckoner

open Attempt Reading

/-! Reading such a text as a program. -/

/-- Reading a whole expression stops before the mark of the end. -/
theorem Expr.read_of_ofTokens {ts : List Token} {e : Expr} (h : Expr.ofTokens ts = .ok e) :
    ∃ rest, Expr.read 0 ts = .ok (e, rest) ∧ (peek rest).isFinish = true := by
  obtain ⟨⟨first, rest⟩, hFirst, hRest⟩ := bind_ok h
  unfold Expr.readFirst at hFirst
  dsimp only at hRest
  split at hFirst
  · cases hFirst
  · split at hRest
    · next hFinish =>
        cases hRest
        exact ⟨rest, hFirst, hFinish⟩
    · cases hRest

/-- The tokens of an expression are a program of one statement. -/
theorem Program.ofTokens_of_expression {ts : List Token} {e : Expr}
    (h : Expr.ofTokens ts = .ok e) : Program.ofTokens ts = .ok [e.asStatement] := by
  obtain ⟨rest, hRead, hFinish⟩ := Expr.read_of_ofTokens h
  obtain ⟨used, hTokens, hExpression⟩ := Expr.read_ok_iff.mp hRead
  have hLeads : Leads (peek ts) := hTokens ▸ hExpression.leads rest
  have hStarts : (peek ts).Starts := Token.starts_of_leads hLeads
  have hMapped : simple ts = Expr.read 0 ts >>= fun r => .ok (r.1.asStatement, r.2) :=
    congrFun (congrFun simple_eq 0) ts
  have hSimple : simple ts = .ok (e.asStatement, rest) := by
    rw [hMapped, hRead]
    rfl
  have hStatement : statement (budget ts) ts = .ok (e.asStatement, rest) :=
    statement_of_leads hLeads hSimple (skipSemicolons_of_finish hFinish)
  have hNone : statements (4 * ts.length + 3) rest = .ok [] := by
    rw [statements, if_pos hFinish]
  rw [Program.ofTokens, skipSemicolons_of_pause hStarts.pause]
  simp only [hStarts.finish, Bool.false_eq_true, if_false]
  rw [budget, statements]
  simp only [hStarts.finish, Bool.false_eq_true, if_false, hStatement, bind, Except.bind, hNone]

/-! Carrying it out. -/

namespace Expr

variable {policy : Policy} {activate : Activation} {e : Expr} {m : Machine}

/-- An expression of which only the value matters. -/
def valued (policy : Policy) (activate : Activation) (e : Expr) : Execution Outcome := do
  let value ← Execution.reading fun t => e.evaluate policy activate t
  return ⟨some value, .normal⟩

/-- Where only the value matters, the table stays as it is. -/
theorem runOn_valued : runOn (e.valued policy activate) m =
    ((runOn (e.evaluate policy activate m.table) m.run).1.map fun v => ⟨some v, .normal⟩,
      { m with run := (runOn (e.evaluate policy activate m.table) m.run).2 }) := by
  rw [valued, runOn_bind, Execution.runOn_reading]
  cases (runOn (e.evaluate policy activate m.table) m.run).1 <;> rfl

/-- Unless it assigns to a name or calls a procedure, an expression that stands
by itself only has its value. -/
theorem runOn_asStatement (hAssign : ∀ x rhs, e ≠ .binary .assign (.name x) rhs)
    (hCall : ∀ callee args, e = .call callee args → callee ∉ m.table.procedures) :
    runOn (e.asStatement.execute policy activate) m = runOn (e.valued policy activate) m := by
  cases e with
  | call callee args =>
      have hNone : m.table.procedures[callee]? = none :=
        Std.ExtTreeMap.getElem?_eq_none (hCall callee args rfl)
      change runOn ((Statement.call callee args).execute policy activate) m = _
      rw [Statement.execute, runOn_bind, runOn_get]
      dsimp only
      rw [hNone]
      rfl
  | binary op left right =>
      cases op with
      | assign =>
          cases left with
          | name x => exact absurd rfl (hAssign x right)
          | _ => rfl
      | _ => rfl
  | _ => rfl

/-- Evaluating an assignment checks its target, but stores nothing. -/
theorem runOn_evaluate_assign (x : String) (rhs : Expr) (t : Table) (run : Run) :
    runOn ((binary .assign (name x) rhs).evaluate policy activate t) run =
      match checkTarget t .variableNotFound (name x) with
      | .ok _ => runOn (rhs.evaluate policy activate t) run
      | .error e => (.error e, run) := by
  rw [evaluate, runOn_bind]
  cases checkTarget t .variableNotFound (name x) <;> rfl

/-- Carrying out an assignment also stores the value. -/
theorem runOn_perform_assign (x : String) (rhs : Expr) (m : Machine) :
    runOn ((binary .assign (name x) rhs).asStatement.execute policy activate) m =
      match checkTarget m.table .undeclaredVariable (name x) with
      | .ok _ =>
        match runOn (rhs.evaluate policy activate m.table) m.run with
        | (.ok v, run) =>
          match m.table.assign x v with
          | .ok t => (.ok ⟨some v, .normal⟩, ⟨t, run⟩)
          | .error e => (.error e, { m with run := run })
        | (.error e, run) => (.error e, { m with run := run })
      | .error e => (.error e, m) := by
  change runOn (perform policy activate (binary .assign (name x) rhs)) m = _
  rw [perform, runOn_bind, Execution.runOn_reading]
  cases checkTarget m.table .undeclaredVariable (name x) with
  | error e => rfl
  | ok _ =>
      change runOn (_ >>= _) m = _
      rw [runOn_bind, Execution.runOn_reading]
      rcases hValue : runOn (rhs.evaluate policy activate m.table) m.run with ⟨e | v, run⟩
      · rfl
      · dsimp only
        rw [runOn_bind, Execution.runOn_updating]
        cases m.table.assign x v <;> rfl

/-- The root is an assignment to a name that was not declared. -/
def AssignsAbsent (e : Expr) (t : Table) (x : String) : Prop :=
  (∃ rhs, e = .binary .assign (.name x) rhs) ∧ Constant.contains x = false ∧ t.contains x = false

/-- The root is an assignment that would give a constant another value. -/
def Overwrites (e : Expr) (t : Table) (x : String) (v : Float) : Prop :=
  (∃ rhs, e = .binary .assign (.name x) rhs) ∧
    ∃ old, t.vars[x]? = some ⟨old, true⟩ ∧ (old != Number.toSingle v) = true

/-- How the value of an expression goes with carrying it out as a statement. -/
structure Agreement (e : Expr) (t : Table) (valued : Except Failure Float × Run)
    (carried : Except Failure Outcome × Machine) : Prop where
  run : carried.2.run = valued.2
  absent : ∀ x, e.AssignsAbsent t x → valued.1 = .error (.symbol (.variableNotFound x)) ∧
    carried.1 = .error (.symbol (.undeclaredVariable x))
  overwriting : ∀ x v, e.Overwrites t x v → valued.1 = .ok v →
    carried.1 = .error (.symbol (.immutableConstant x))
  otherwise : (∀ x, ¬ e.AssignsAbsent t x) → (∀ x v, valued.1 = .ok v → ¬ e.Overwrites t x v) →
    carried.1 = valued.1.map fun v => ⟨some v, .normal⟩

theorem agreement_of_plain (hAssign : ∀ x rhs, e ≠ .binary .assign (.name x) rhs)
    (hCall : ∀ callee args, e = .call callee args → callee ∉ m.table.procedures) :
    e.Agreement m.table (runOn (e.evaluate policy activate m.table) m.run)
      (runOn (e.asStatement.execute policy activate) m) := by
  rw [runOn_asStatement hAssign hCall, runOn_valued]
  refine ⟨rfl, ?_, ?_, fun _ _ => rfl⟩
  · rintro x ⟨⟨rhs, rfl⟩, -⟩
    exact absurd rfl (hAssign x rhs)
  · rintro x v ⟨⟨rhs, rfl⟩, -⟩
    exact absurd rfl (hAssign x rhs)

/-- A value is stored unless the target is a constant with another one. -/
theorem agreement_of_stored {x : String} {rhs : Expr} {v : Float} {run : Run}
    (hGlobal : Constant.contains x = false) (hContains : m.table.contains x = true)
    (hAbsent : ∀ y, ¬ (binary .assign (name x) rhs).AssignsAbsent m.table y) :
    (binary .assign (name x) rhs).Agreement m.table (.ok v, run) (match m.table.assign x v with
      | .ok t => (.ok ⟨some v, .normal⟩, ⟨t, run⟩)
      | .error e => (.error e, { m with run := run })) := by
  rw [Table.contains_eq_isSome] at hContains
  obtain ⟨⟨old, constant⟩, hOld⟩ := Option.isSome_iff_exists.mp hContains
  have hAssign : m.table.assign x v = if constant && old != Number.toSingle v then
      .error (.symbol (.immutableConstant x))
      else .ok { m.table with vars := m.table.vars.insert x ⟨Number.toSingle v, constant⟩ } := by
    simp [Table.assign, hGlobal, hOld]
  have hOverwrites (y : String) (w : Float) :
      (binary .assign (name x) rhs).Overwrites m.table y w ↔
        y = x ∧ constant = true ∧ (old != Number.toSingle w) = true := by
    constructor
    · rintro ⟨⟨_, ⟨⟩⟩, other, hOther, hDiffers⟩
      cases hOld.symm.trans hOther
      exact ⟨rfl, rfl, hDiffers⟩
    · rintro ⟨rfl, rfl, hDiffers⟩
      exact ⟨⟨rhs, rfl⟩, old, hOld, hDiffers⟩
  rw [hAssign]
  cases hRefused : constant && old != Number.toSingle v with
  | true =>
      simp only [Bool.and_eq_true] at hRefused
      refine ⟨rfl, fun y hy => absurd hy (hAbsent y), ?_, fun _ hNot => ?_⟩
      · intro y w hy hw
        obtain ⟨rfl, -⟩ := (hOverwrites y w).mp hy
        rfl
      · exact absurd ((hOverwrites x v).mpr ⟨rfl, hRefused⟩) (hNot x v rfl)
  | false =>
      refine ⟨rfl, fun y hy => absurd hy (hAbsent y), ?_, fun _ _ => rfl⟩
      rintro y w hy ⟨⟩
      obtain ⟨-, hConstant, hDiffers⟩ := (hOverwrites y v).mp hy
      simp [hConstant, hDiffers] at hRefused

/-- By how the check of the target goes: absent, a constant that every program
knows, or there. -/
theorem agreement_of_assign (x : String) (rhs : Expr) (m : Machine) :
    (binary .assign (name x) rhs).Agreement m.table
      (runOn ((binary .assign (name x) rhs).evaluate policy activate m.table) m.run)
      (runOn ((binary .assign (name x) rhs).asStatement.execute policy activate) m) := by
  rw [runOn_evaluate_assign, runOn_perform_assign]
  cases hGlobal : Constant.contains x with
  | true =>
      simp only [checkTarget, hGlobal, if_true]
      refine ⟨rfl, ?_, ?_, fun _ _ => rfl⟩
      · rintro y ⟨⟨_, ⟨⟩⟩, hNot, -⟩
        exact absurd (hGlobal.symm.trans hNot) (by decide)
      · rintro y v - ⟨⟩
  | false =>
      cases hContains : m.table.contains x with
      | false =>
          have hAbsent : (binary .assign (name x) rhs).AssignsAbsent m.table x :=
            ⟨⟨rhs, rfl⟩, hGlobal, hContains⟩
          simp only [checkTarget, hGlobal, hContains, Bool.false_eq_true, if_false]
          refine ⟨rfl, ?_, ?_, fun hNot _ => absurd hAbsent (hNot x)⟩
          · rintro y ⟨⟨_, ⟨⟩⟩, -⟩
            exact ⟨rfl, rfl⟩
          · rintro y v - ⟨⟩
      | true =>
          have hAbsent (y : String) : ¬ (binary .assign (name x) rhs).AssignsAbsent m.table y := by
            rintro ⟨⟨_, ⟨⟩⟩, -, hNot⟩
            exact absurd (hContains.symm.trans hNot) (by decide)
          simp only [checkTarget, hGlobal, hContains, Bool.false_eq_true, if_false, if_true]
          rcases runOn (rhs.evaluate policy activate m.table) m.run with ⟨e | v, run⟩
          · exact ⟨rfl, fun y hy => absurd hy (hAbsent y), fun _ _ _ hOk => (by cases hOk),
              fun _ _ => rfl⟩
          · exact agreement_of_stored hGlobal hContains hAbsent

/-- Assignments to names by themselves, and all other expressions as plain ones. -/
theorem agreement (policy : Policy) (activate : Activation) (e : Expr) (m : Machine)
    (hCall : ∀ callee args, e = .call callee args → callee ∉ m.table.procedures) :
    e.Agreement m.table (runOn (e.evaluate policy activate m.table) m.run)
      (runOn (e.asStatement.execute policy activate) m) := by
  by_cases hAssign : ∃ x rhs, e = .binary .assign (.name x) rhs
  · obtain ⟨x, rhs, rfl⟩ := hAssign
    exact agreement_of_assign x rhs m
  · exact agreement_of_plain (fun x rhs he => hAssign ⟨x, rhs, he⟩) hCall

end Expr

namespace Program

/-- What a program comes to when its last statement was carried out. -/
def concluded : Except Failure Outcome × Machine → Except Failure (Option Float) × Machine
  | (.error e, m) => (.error e, m)
  | (.ok outcome, m) =>
    (match m.run.exit, outcome.flow with
      | some value, _ => .ok value
      | none, .breaking => .error (.flow .breakOutsideLoop)
      | none, .continuing => .error (.flow .continueOutsideLoop)
      | none, _ => .ok outcome.value, m)

/-- A program of one statement comes to what its statement does, and to a
failure if control is diverted. -/
theorem run_singleton (policy : Policy) (s : Statement) (m : Machine) :
    Program.run policy [s] m = concluded (runOn (s.execute policy policy.activation) m) := by
  change runOn (Program.execute policy [s] none) m = _
  rw [Program.execute, runOn_bind]
  rcases runOn (s.execute policy policy.activation) m with ⟨e | outcome, m'⟩
  · rfl
  · dsimp only [concluded]
    rw [runOn_bind, runOn_get]
    dsimp only
    cases m'.run.exit with
    | some value => rfl
    | none => cases outcome.flow <;> rfl

theorem concluded_machine (r : Except Failure Outcome × Machine) : (concluded r).2 = r.2 := by
  rcases r with ⟨e | outcome, m⟩ <;> rfl

theorem concluded_error {r : Except Failure Outcome × Machine} {e : Failure} (h : r.1 = .error e) :
    (concluded r).1 = .error e := by
  obtain ⟨result, m⟩ := r
  cases h
  rfl

/-- A run that has not ended gives the value of its last statement. -/
theorem concluded_normal {r : Except Failure Outcome × Machine} {v : Except Failure Float}
    (hExit : r.2.run.exit = none) (h : r.1 = v.map fun v => ⟨some v, .normal⟩) :
    (concluded r).1 = v.map some := by
  obtain ⟨result, m⟩ := r
  cases h
  cases v with
  | error e => rfl
  | ok v =>
      change (match m.run.exit, Flow.normal with
        | some value, _ => _
        | none, .breaking => _
        | none, .continuing => _
        | none, _ => _) = _
      rw [show m.run.exit = none from hExit]
      rfl

end Program

/-- Evaluating a text and carrying it out agree on expressions. They raise
different errors if an assignment at the root has an undeclared target, and only
carrying it out fails if the target is a constant with another value. -/
theorem entry_points_agree (policy : Policy) (text : String) (e : Expr) (m : Machine)
    (hText : Expr.ofText text = .ok e)
    (hCall : ∀ callee args, e = .call callee args → callee ∉ m.table.procedures) :
    Program.ofText text = .ok [e.asStatement] ∧
    (execute policy text m).2.run = (Reckoner.evaluate policy text m).2 ∧
    (∀ x, e.AssignsAbsent m.table x →
      (Reckoner.evaluate policy text m).1 = .error (.symbol (.variableNotFound x)) ∧
      (execute policy text m).1 = .error (.symbol (.undeclaredVariable x))) ∧
    (∀ x v, e.Overwrites m.table x v → (Reckoner.evaluate policy text m).1 = .ok v →
      (execute policy text m).1 = .error (.symbol (.immutableConstant x))) ∧
    ((Reckoner.evaluate policy text m).2.exit = none → (∀ x, ¬ e.AssignsAbsent m.table x) →
      (∀ x v, (Reckoner.evaluate policy text m).1 = .ok v → ¬ e.Overwrites m.table x v) →
      (execute policy text m).1 = (Reckoner.evaluate policy text m).1.map some) := by
  have hProgram : Program.ofText text = .ok [e.asStatement] := Program.ofTokens_of_expression hText
  have hEvaluate : Reckoner.evaluate policy text m =
      runOn (e.evaluate policy policy.activation m.table) m.run := by
    rw [Reckoner.evaluate, hText]
    rfl
  have hExecute : execute policy text m =
      Program.concluded (runOn (e.asStatement.execute policy policy.activation) m) := by
    rw [execute, hProgram]
    exact Program.run_singleton policy e.asStatement m
  have hAgree := e.agreement policy policy.activation m hCall
  rw [hEvaluate, hExecute, Program.concluded_machine]
  refine ⟨hProgram, hAgree.run, fun x hAbsent => ?_, fun x v hOver hValue => ?_,
    fun hExit hAbsent hOver => ?_⟩
  · exact ⟨(hAgree.absent x hAbsent).1, Program.concluded_error (hAgree.absent x hAbsent).2⟩
  · exact Program.concluded_error (hAgree.overwriting x v hOver hValue)
  · exact Program.concluded_normal (hAgree.run ▸ hExit) (hAgree.otherwise hAbsent hOver)

/-- A constant and a variable. -/
def oneAndTwo : Machine :=
  ⟨{ Table.empty with
      vars := (Table.empty.vars.insert "one" ⟨1, true⟩).insert "two" ⟨2, false⟩ }, {}⟩

/-- The variable takes the value of the constant, but not the other way round,
and nothing is stored under a name that was not declared. -/
theorem entry_points_agree_oneAndTwo :
    let policy := Policy.usual none fun _ => 0.5
    ((Reckoner.evaluate policy "two = one" oneAndTwo).1 = .ok 1 ∧
      (execute policy "two = one" oneAndTwo).1 = .ok (some 1)) ∧
    ((Reckoner.evaluate policy "one = two" oneAndTwo).1 = .ok 2 ∧
      (execute policy "one = two" oneAndTwo).1 = .error (.symbol (.immutableConstant "one"))) ∧
    ((Reckoner.evaluate policy "three = two" oneAndTwo).1 =
        .error (.symbol (.variableNotFound "three")) ∧
      (execute policy "three = two" oneAndTwo).1 =
        .error (.symbol (.undeclaredVariable "three"))) := by
  intro policy
  have hOne : (Reckoner.evaluate policy "two = one" oneAndTwo).1 = .ok 1 := by decide +kernel
  have hTwo : (Reckoner.evaluate policy "one = two" oneAndTwo).1 = .ok 2 := by decide +kernel
  have hText (text x y : String)
      (hRead : Expr.ofText text = .ok (.binary .assign (.name x) (.name y))) :=
    entry_points_agree policy text _ oneAndTwo hRead fun _ _ he => (by cases he)
  obtain ⟨-, -, -, -, hCopied⟩ := hText "two = one" "two" "one" (by with_unfolding_all rfl)
  obtain ⟨-, -, -, hKept, -⟩ := hText "one = two" "one" "two" (by with_unfolding_all rfl)
  obtain ⟨-, -, hAbsent, -, -⟩ := hText "three = two" "three" "two" (by with_unfolding_all rfl)
  refine ⟨⟨hOne, ?_⟩, ⟨hTwo, ?_⟩, hAbsent "three" ⟨⟨_, rfl⟩, by decide +kernel, by decide +kernel⟩⟩
  · have hAgree := hCopied (by decide +kernel)
    rw [hOne] at hAgree
    apply hAgree
    · rintro x ⟨⟨_, ⟨⟩⟩, -, hNot⟩
      exact absurd hNot (by decide +kernel)
    · rintro x v - ⟨⟨_, ⟨⟩⟩, old, hOld, -⟩
      have hVariable : oneAndTwo.table.isConstant "two" = false := by decide +kernel
      simp [Table.isConstant, hOld] at hVariable
  · exact hKept "one" 2 ⟨⟨_, rfl⟩, 1, rfl, by decide +kernel⟩ hTwo

end Reckoner
