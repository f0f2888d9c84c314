import Reckoner.Proofs.Vocabulary

/-! Two runs that a vocabulary cannot tell apart. They take the same steps with
the same values, fail in the same way, and end on tables that the vocabulary
cannot tell apart either. So a name that occurs nowhere makes no difference. -/
namespace Reckoner

open Attempt

variable {V : Vocabulary} {R : Table → Table → Prop} {Q : Run → Run → Prop} {policy : Policy}
  {activate : Activation}

/-- What a relation between tables has to say of the declared functions that a
vocabulary can call: on both sides they are the same, and they come to the same. -/
structure Vocabulary.CallsAlike (V : Vocabulary) (R : Table → Table → Prop)
    (Q : Run → Run → Prop) (activate : Activation) : Prop where
  functions : ∀ {t t' callee}, R t t' → V.callees callee = true → Builtin.ofName? callee = none →
    t'.functions[callee]? = t.functions[callee]?
  uncallable : ∀ {t t' callee}, R t t' → V.callees callee = true →
    Builtin.ofName? callee = none → Expr.uncallable t' callee = Expr.uncallable t callee
  activate : ∀ {t t' callee function}, R t t' → V.callees callee = true →
    Builtin.ofName? callee = none → t.functions[callee]? = some function → ∀ values,
      Coupled Q (Subroutine.SameResult R) (activate function values t) (activate function values t')

namespace Expr

/-- The target of an assignment is a name of the vocabulary, so both tables let
it pass or neither does. -/
theorem checkTarget_eq (hV : V.Congruence R) {t t' : Table} (ht : R t t')
    (absent : String → SymbolError) {target : Expr} (h : target.within V = true) :
    checkTarget t' absent target = checkTarget t absent target := by
  cases target with
  | name x => rw [checkTarget, checkTarget, hV.contains ht h]
  | _ => rfl

mutual

/-- The induction is on the expression. Names are those of the vocabulary, and
all else is computed from values that are the same. -/
theorem indifferent_of_within (hV : V.Congruence R) (hQ : Run.Congruence policy Q)
    (hCalls : V.CallsAlike R Q activate) (e : Expr) (he : e.within V = true) :
    e.Indifferent R Q policy activate := by
  intro t t' ht
  match e with
  | number value _ => exact .pure rfl
  | name x =>
      rw [evaluate, evaluate, lookup, lookup, hV.get? ht he]
      exact Evaluation.coupled_same _
  | unary op e =>
      exact (indifferent_of_within hV hQ hCalls e he t t' ht).bindSame fun a =>
        Evaluation.coupled_same _
  | binary op left right =>
      obtain ⟨hLeft, hRight⟩ := Bool.and_eq_true_iff.mp he
      have hValue : Coupled Q Eq (right.evaluate policy activate t)
          (right.evaluate policy activate t') :=
        indifferent_of_within hV hQ hCalls right hRight t t' ht
      have hOperands : Coupled Q Eq (do
          let a ← left.evaluate policy activate t
          let b ← right.evaluate policy activate t
          Evaluation.ofExcept (Arithmetic.settle (Arithmetic.binary op a b))) (do
          let a ← left.evaluate policy activate t'
          let b ← right.evaluate policy activate t'
          Evaluation.ofExcept (Arithmetic.settle (Arithmetic.binary op a b))) := by
        refine (indifferent_of_within hV hQ hCalls left hLeft t t' ht).bindSame fun a => ?_
        exact hValue.bindSame fun b => Evaluation.coupled_same _
      cases op with
      | assign =>
          rw [evaluate, evaluate, checkTarget_eq hV ht _ hLeft]
          exact (Evaluation.coupled_same _).bindSame fun _ => hValue
      | _ => exact hOperands
  | call callee args =>
      obtain ⟨hCallee, hArgs⟩ := Bool.and_eq_true_iff.mp he
      have hValues : Coupled Q Eq (evaluateAll policy activate t args)
          (evaluateAll policy activate t' args) :=
        coupled_evaluateAll hV hQ hCalls args hArgs t t' ht
      unfold evaluate
      cases hBuiltin : Builtin.ofName? callee with
      | some builtin => exact hValues.bindSame fun values => builtin.coupled_call hQ values
      | none =>
          rw [hCalls.functions ht hCallee hBuiltin, hCalls.uncallable ht hCallee hBuiltin]
          cases hFunction : t.functions[callee]? with
          | none => exact .throw _
          | some function =>
              refine hValues.bindSame fun values => ?_
              refine (hCalls.activate ht hCallee hBuiltin hFunction values).bind ?_
              rintro ⟨scope, value⟩ ⟨scope', value'⟩ ⟨_, hSame⟩
              exact .pure (congrArg (·.getD 0.0) hSame)

theorem coupled_evaluateAll (hV : V.Congruence R) (hQ : Run.Congruence policy Q)
    (hCalls : V.CallsAlike R Q activate) (es : List Expr) (hes : withinAll V es = true)
    (t t' : Table) (ht : R t t') :
    Coupled Q Eq (evaluateAll policy activate t es) (evaluateAll policy activate t' es) := by
  match es with
  | [] => exact .pure rfl
  | e :: rest =>
      obtain ⟨hFirst, hRest⟩ := Bool.and_eq_true_iff.mp hes
      refine (indifferent_of_within hV hQ hCalls e hFirst t t' ht).bindSame fun value => ?_
      exact (coupled_evaluateAll hV hQ hCalls rest hRest t t' ht).bindSame fun values => .pure rfl

end

end Expr

namespace Statement

open Execution

/-- Declarations, and calls that stand by themselves. -/
def isAct : Statement → Bool
  | letVar .. | constVar .. | define .. | call .. => true
  | _ => false

mutual

/-- The declarations in a statement and the calls that stand by themselves. What
is declared is not looked into. -/
def acts : Statement → List Statement
  | block body => actsAll body
  | ifThen _ yes => yes.acts
  | ifElse _ yes no => yes.acts ++ no.acts
  | whileLoop _ body => body.acts
  | s => if s.isAct then [s] else []

def actsAll : List Statement → List Statement
  | [] => []
  | s :: rest => s.acts ++ actsAll rest

end

mutual

/-- All that a vocabulary does not settle about a statement is what it declares
and whom it calls. The induction is on the statement. Both runs carry it out, so
every case splits in the same way on both sides. -/
theorem indifferent_of_acts (hV : V.Congruence R) (hQ : Run.Congruence policy Q)
    (hCalls : V.CallsAlike R Q activate) (s : Statement) (hs : s.within V = true)
    (hActs : ∀ act ∈ s.acts, act.isAct = true → act.within V = true →
      act.Indifferent R Q policy activate) :
    s.Indifferent R Q policy activate := by
  have hR := hV.toCongruence
  have hExpr (e : Expr) (he : e.within V = true) : e.Indifferent R Q policy activate :=
    e.indifferent_of_within hV hQ hCalls he
  have hGiven {e : Option Expr} (he : e.all (·.within V) = true) (given : Expr)
      (hIn : given ∈ e) : given.Indifferent R Q policy activate := by
    obtain rfl : e = some given := hIn
    exact hExpr given he
  match s with
  | expression e =>
      refine indifferent_expression (hExpr e hs) ?_
      rintro x right rfl
      obtain ⟨hTarget, hRight⟩ := Bool.and_eq_true_iff.mp hs
      exact ⟨hExpr right hRight, fun t t' ht => ⟨hV.contains ht hTarget, hV.assign ht hTarget⟩⟩
  | block body => exact indifferent_block hR (coupled_executeAll hV hQ hCalls body hs hActs none)
  | ifThen test yes =>
      obtain ⟨hTest, hYes⟩ := Bool.and_eq_true_iff.mp hs
      exact indifferent_ifThen hR (hExpr test hTest)
        (indifferent_of_acts hV hQ hCalls yes hYes hActs)
  | ifElse test yes no =>
      obtain ⟨hTest, hBranches⟩ := Bool.and_eq_true_iff.mp hs
      obtain ⟨hYes, hNo⟩ := Bool.and_eq_true_iff.mp hBranches
      refine indifferent_ifElse hR (hExpr test hTest)
        (indifferent_of_acts hV hQ hCalls yes hYes fun act hAct => ?_)
        (indifferent_of_acts hV hQ hCalls no hNo fun act hAct => ?_)
      · exact hActs act (List.mem_append_left _ hAct)
      · exact hActs act (List.mem_append_right _ hAct)
  | whileLoop test body =>
      obtain ⟨hTest, hBody⟩ := Bool.and_eq_true_iff.mp hs
      exact indifferent_whileLoop hR hQ (hExpr test hTest)
        (indifferent_of_acts hV hQ hCalls body hBody hActs)
  | breakLoop => exact .pure rfl
  | continueLoop => exact .pure rfl
  | returnValue e => exact indifferent_returnValue (fun _ _ ht => hV.called ht) (hGiven hs)
  | endRun e => exact indifferent_endRun hQ (hGiven hs)
  | letVar name init => exact hActs _ List.mem_cons_self rfl hs
  | constVar name init => exact hActs _ List.mem_cons_self rfl hs
  | define kind name params body => exact hActs _ List.mem_cons_self rfl hs
  | call name args => exact hActs _ List.mem_cons_self rfl hs

theorem coupled_executeAll (hV : V.Congruence R) (hQ : Run.Congruence policy Q)
    (hCalls : V.CallsAlike R Q activate) (body : List Statement) (hBody : withinAll V body = true)
    (hActs : ∀ act ∈ actsAll body, act.isAct = true → act.within V = true →
      act.Indifferent R Q policy activate) (value : Option Float) :
    Coupled (Machine.Related R Q) Eq (executeAll policy activate body value)
      (executeAll policy activate body value) := by
  match body with
  | [] => exact .pure rfl
  | s :: rest =>
      obtain ⟨hFirst, hRest⟩ := Bool.and_eq_true_iff.mp hBody
      refine coupled_executeAll_cons hQ
        (indifferent_of_acts hV hQ hCalls s hFirst fun act hAct => ?_)
        (coupled_executeAll hV hQ hCalls rest hRest fun act hAct => ?_) value
      · exact hActs act (List.mem_append_left _ hAct)
      · exact hActs act (List.mem_append_right _ hAct)

end

end Statement

/-! Tables that the vocabulary cannot tell apart, with subroutines that keep to it. -/

variable {kept kept' : String → Option Variable}

/-- Subroutines that use the names of the vocabulary only cannot tell tables
apart either. -/
def Activation.Coupled (V : Vocabulary) (kept kept' : String → Option Variable)
    (Q : Run → Run → Prop) (activate : Activation) : Prop :=
  ∀ (s : Subroutine) (args : List Float) (t t' : Table),
    s.within V = true → t.Alike V kept kept' t' →
    Attempt.Coupled Q (Subroutine.SameResult (Table.Alike V kept kept')) (activate s args t)
      (activate s args t')

/-- What has to be said of functions follows, because the functions of the
vocabulary keep to it. -/
theorem Activation.Coupled.callsAlike (h : Activation.Coupled V kept kept' Q activate) :
    V.CallsAlike (Table.Alike V kept kept') Q activate where
  functions ht hCallee _ := ht.functions _ hCallee
  uncallable ht hCallee _ := by
    simp only [Expr.uncallable, Std.ExtTreeMap.contains_eq_isSome_getElem?,
      ht.procedures _ hCallee]
  activate ht hCallee _ hFunction values :=
    h _ values _ _ (ht.functionsWithin _ _ hCallee hFunction) ht

/-- Declarations and calls within the vocabulary do not tell tables apart that
it cannot tell apart. -/
theorem Statement.indifferent_of_within (hQ : Run.Congruence policy Q)
    (hActivate : Activation.Coupled V kept kept' Q activate) (s : Statement)
    (hs : s.within V = true) : s.Indifferent (Table.Alike V kept kept') Q policy activate := by
  have hV := Table.Alike.congruence V kept kept'
  have hCalls := hActivate.callsAlike
  refine indifferent_of_acts hV hQ hCalls s hs fun act _ hAct hWithin => ?_
  have hExpr (e : Expr) (he : e.within V = true) := e.indifferent_of_within hV hQ hCalls he
  cases act with
  | letVar name init =>
      obtain ⟨hName, hInit⟩ := Bool.and_eq_true_iff.mp hWithin
      have hGiven (given : Expr) (hIn : given ∈ init) :
          given.Indifferent (Table.Alike V kept kept') Q policy activate := by
        obtain rfl : init = some given := hIn
        exact hExpr given hInit
      refine (coupled_optional hGiven).bindSame fun value => ?_
      exact (Execution.coupled_updating fun _ _ ht => hV.assign ht hName _).bindSame
        fun _ => .pure rfl
  | constVar name init =>
      obtain ⟨hName, hInit⟩ := Bool.and_eq_true_iff.mp hWithin
      refine (Execution.coupled_reading (hExpr init hInit)).bindSame fun a => ?_
      exact (Execution.coupled_updating fun _ _ ht => ht.declareConstant hName a).bindSame
        fun _ => .pure rfl
  | define kind name params body =>
      obtain ⟨hName, hBody⟩ := Bool.and_eq_true_iff.mp hWithin
      exact (Execution.coupled_updating fun _ _ ht =>
        ht.declare kind (s := ⟨name, params, body⟩) hName hBody).bindSame fun _ => .pure rfl
  | call name args =>
      obtain ⟨hCallee, hArgs⟩ := Bool.and_eq_true_iff.mp hWithin
      refine Execution.coupled_get.bind fun m m' hm => ?_
      rw [hm.table.procedures name hCallee]
      cases hProcedure : m.table.procedures[name]? with
      | none =>
          exact (Execution.coupled_reading (hExpr (.call name args) hWithin)).bindSame
            fun a => .pure rfl
      | some procedure =>
          have hBody := hm.table.proceduresWithin name procedure hCallee hProcedure
          refine (Execution.coupled_reading
            (Expr.coupled_evaluateAll hV hQ hCalls args hArgs)).bindSame fun values => ?_
          refine (Execution.coupled_reading fun t t' ht =>
            hActivate procedure values t t' hBody ht).bind ?_
          rintro ⟨scope, value⟩ ⟨scope', value'⟩ ⟨hScope, _⟩
          exact (Execution.coupled_merging hV.toCongruence hScope _).bindSame fun _ => .pure rfl
  | _ => cases hAct

/-- The induction is on how deep calls may be nested. -/
theorem Subroutine.coupled_activate (V : Vocabulary) (kept kept' : String → Option Variable)
    (hQ : Run.Congruence policy Q) (depth : Nat) :
    Activation.Coupled V kept kept' Q (Subroutine.activate policy depth) := by
  induction depth with
  | zero => exact fun _ _ _ _ _ _ => .throw _
  | succ depth ih =>
      intro s args t t' hs ht
      obtain ⟨hParams, hBody⟩ := Bool.and_eq_true_iff.mp hs
      have hZip (entry : String × Float) (hEntry : entry ∈ s.params.zip args) :
          V.names entry.1 = true :=
        List.all_eq_true.mp hParams entry.1 (List.of_mem_zip hEntry).1
      refine coupled_activate_succ (fun _ => ?_)
        (Statement.indifferent_of_within hQ ih (.block s.body) hBody)
      exact (Table.Alike.congruence V kept kept').assignAll ht.enterCall hZip

/-- A program that uses the names of a vocabulary only cannot tell machines apart
that the vocabulary cannot tell apart. -/
theorem Program.coupled_of_within (hQ : Run.Congruence policy Q) (p : Program)
    (hp : Statement.withinAll V p = true) (value : Option Float) :
    Coupled (Machine.Related (Table.Alike V kept kept') Q) Eq (p.execute policy value)
      (p.execute policy value) := by
  induction p generalizing value with
  | nil => exact .pure rfl
  | cons s rest ih =>
      obtain ⟨hFirst, hRest⟩ := Bool.and_eq_true_iff.mp hp
      have hActivate := Subroutine.coupled_activate V kept kept' hQ policy.depth
      exact coupled_execute_cons hQ (s.indifferent_of_within hQ hActivate hFirst) (ih hRest) value

/-- The same for runs that are equal. -/
theorem Program.coupled_execute (policy : Policy) (p : Program)
    (hp : Statement.withinAll V p = true) (value : Option Float) :
    Coupled (Machine.Related (Table.Alike V kept kept') Eq) Eq (p.execute policy value)
      (p.execute policy value) :=
  p.coupled_of_within (Run.congruence_eq policy) hp value

/-! A name that occurs nowhere. -/

/-- All names but one. -/
def Vocabulary.without (z : String) : Vocabulary := ⟨(· != z), fun _ => true⟩

theorem Vocabulary.without_names {z name : String} :
    (without z).names name = true ↔ name ≠ z := bne_iff_ne

theorem Vocabulary.not_without_names {z name : String} :
    (without z).names name = false ↔ name = z := bne_eq_false_iff_eq

namespace Table

/-- The table with a variable, which may be constant, under one more name. -/
def extended (t : Table) (z : String) (v : Variable) : Table :=
  { t with vars := t.vars.insert z v }

/-- A table and the same one with another name are alike to whoever does not use
it. -/
theorem alike_extended {t : Table} (hSound : t.Sound) {z : String}
    (hGlobal : Constant.contains z = false) (hAbsent : t.contains z = false) (v : Variable)
    (hStored : ∀ (name : String) (s : Subroutine),
      t.functions[name]? = some s ∨ t.procedures[name]? = some s →
        s.within (.without z) = true) :
    t.Alike (.without z) (fun _ => none) (fun _ => some v) (t.extended z v) where
  sound := hSound
  sound' := hSound.insert hGlobal v
  vars name hName := by
    have hOther : z ≠ name := (Vocabulary.without_names.mp hName).symm
    simp [extended, Std.ExtTreeMap.getElem?_insert, hOther]
  functions _ _ := rfl
  procedures _ _ := rfl
  functionsWithin name s _ hs := hStored name s (.inl hs)
  proceduresWithin name s _ hs := hStored name s (.inr hs)
  called := Iff.rfl
  keeps name hName := by
    have hSame : name = z := Vocabulary.not_without_names.mp hName
    rw [contains_eq_isSome, Option.isSome_eq_false_iff, Option.isNone_iff_eq_none] at hAbsent
    rw [hSame, hAbsent]
  keeps' name hName := by
    have hSame : name = z := Vocabulary.not_without_names.mp hName
    simp [extended, hSame]

/-- Tables that differ in one name, which the one of them lacks. -/
theorem Alike.eq_extended {t t' : Table} {z : String} {v : Variable}
    (h : t.Alike (.without z) (fun _ => none) (fun _ => some v) t')
    (hDepth : t'.callDepth = t.callDepth) :
    t.contains z = false ∧ t' = t.extended z v := by
  have hUnknown : (Vocabulary.without z).names z = false := Vocabulary.not_without_names.mpr rfl
  constructor
  · rw [contains_eq_isSome, h.keeps z hUnknown]
    rfl
  · have hVars : t'.vars = t.vars.insert z v := by
      apply Std.ExtTreeMap.ext_getElem?
      intro name
      by_cases hName : z = name
      · subst hName
        rw [h.keeps' z hUnknown, Std.ExtTreeMap.getElem?_insert_self]
      · rw [h.vars name (Vocabulary.without_names.mpr (Ne.symm hName))]
        simp [Std.ExtTreeMap.getElem?_insert, hName]
    have hFunctions : t'.functions = t.functions :=
      Std.ExtTreeMap.ext_getElem? fun name => h.functions name rfl
    have hProcedures : t'.procedures = t.procedures :=
      Std.ExtTreeMap.ext_getElem? fun name => h.procedures name rfl
    exact eq_of_parts hVars hFunctions hProcedures hDepth

end Table

/-- Take a name that neither a program nor any stored subroutine uses, and that
the table does not have. With a variable or a constant of any value under that
name, the program comes to the same value or the same failure and leaves the
same run. The table that it leaves is the same but for that name, which still
has what it had. -/
theorem unused_name_irrelevant (policy : Policy) (p : Program) (m : Machine) (z : String)
    (v : Variable) (hReachable : m.table.Reachable) (hGlobal : Constant.contains z = false)
    (hAbsent : m.table.contains z = false)
    (hProgram : Statement.withinAll (.without z) p = true)
    (hStored : ∀ (name : String) (s : Subroutine),
      m.table.functions[name]? = some s ∨ m.table.procedures[name]? = some s →
        s.within (.without z) = true) :
    let plain := p.run policy m
    let added := p.run policy { m with table := m.table.extended z v }
    added.1 = plain.1 ∧ added.2.run = plain.2.run ∧ plain.2.table.contains z = false ∧
      added.2.table = plain.2.table.extended z v := by
  intro plain added
  have hStart := Table.alike_extended hReachable.sound hGlobal hAbsent v hStored
  obtain ⟨hResult, hFinal⟩ := p.coupled_execute policy hProgram none m
    { m with table := m.table.extended z v } ⟨hStart, rfl⟩
  have hDepth : plain.2.table.callDepth = m.table.callDepth :=
    (p.run_keeps (Table.stable_callDepth m.table.callDepth) policy ⟨hReachable.sound, rfl⟩).2
  have hDepth' : added.2.table.callDepth = m.table.callDepth :=
    (p.run_keeps (m := { m with table := m.table.extended z v })
      (Table.stable_callDepth m.table.callDepth) policy ⟨hStart.sound', rfl⟩).2
  obtain ⟨hLacks, hTable⟩ := hFinal.table.eq_extended (hDepth'.trans hDepth.symm)
  exact ⟨hResult.eq.symm, hFinal.run.symm, hLacks, hTable⟩

/-- Adds one to a variable that is not its own. -/
def counter : Subroutine :=
  ⟨"count", [],
    [.expression (.binary .assign (.name "x") (.binary .add (.name "x") (.number 1 "1")))]⟩

/-- Lets the stored procedure count up to two, and fails. -/
def countAndFail : Program :=
  [.letVar "x" none,
   .whileLoop (.binary .lt (.name "x") (.number 2 "2")) (.block [.call "count" []]),
   .expression (.binary .div (.name "x") (.number 0 "0"))]

/-- What is not a number is copied back from every scope, since it is not equal
to itself, and still does not change. -/
theorem unused_name_irrelevant_nan :
    let policy := Policy.usual (some 5) fun _ => 0.5
    let procedures := Table.empty.procedures.insert "count" counter
    let m : Machine := ⟨{ Table.empty with procedures := procedures }, {}⟩
    let v : Variable := ⟨Float.nan, false⟩
    let plain := countAndFail.run policy m
    let added := countAndFail.run policy { m with table := m.table.extended "z" v }
    m.table.Reachable ∧ Constant.contains "z" = false ∧ m.table.contains "z" = false ∧
    Statement.withinAll (.without "z") countAndFail = true ∧
    (∀ (name : String) (s : Subroutine),
      m.table.functions[name]? = some s ∨ m.table.procedures[name]? = some s →
        s.within (.without "z") = true) ∧
    plain.1 = .error (.math .divisionByZero) ∧ plain.2.table.get? "x" = some 2 ∧
    plain.2.run.steps = 2 ∧
    added.1 = plain.1 ∧ added.2.run = plain.2.run ∧ plain.2.table.contains "z" = false ∧
      added.2.table = plain.2.table.extended "z" v := by
  intro policy procedures m v
  have hDeclared : Table.empty.declare .procedure counter = .ok m.table := rfl
  have hReachable : m.table.Reachable := .declare .empty hDeclared
  have hAbsent : m.table.contains "z" = false := by decide +kernel
  have hStored (name : String) (s : Subroutine)
      (hs : m.table.functions[name]? = some s ∨ m.table.procedures[name]? = some s) :
      s.within (.without "z") = true := by
    rcases hs with hs | hs
    · simp [m, Table.empty] at hs
    · simp only [m, procedures, Table.empty, Std.ExtTreeMap.getElem?_insert] at hs
      split at hs
      · cases hs
        decide
      · simp at hs
  refine ⟨hReachable, by decide, hAbsent, by decide, hStored, by decide +kernel,
    by decide +kernel, by decide +kernel, ?_⟩
  exact unused_name_irrelevant policy countAndFail m "z" v hReachable (by decide) hAbsent
    (by decide) hStored

end Reckoner
