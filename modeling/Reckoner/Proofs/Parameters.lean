import Reckoner.Proofs.Locality

/-! Parameters are local to the call. A function whose body uses its parameters
and the functions that every program knows, and nothing else, comes to the same
whoever calls it. Two things of the caller show all the same: a constant in the
place of a parameter, and a procedure in the place of a function. -/
namespace Reckoner

open Attempt

/-- The names of the parameters, and the functions that every program knows. -/
def Vocabulary.ofParameters (params : List String) : Vocabulary :=
  ⟨fun name => params.contains name, fun callee => (Builtin.ofName? callee).isSome⟩

/-- Whether a statement is a call. -/
def Statement.isCall : Statement → Bool
  | call .. => true
  | _ => false

namespace Subroutine

/-- Whether a body declares nothing, uses no names but the parameters, and calls
no functions but those that every program knows. -/
def selfContained (f : Subroutine) : Bool :=
  Statement.withinAll (.ofParameters f.params) f.body &&
    (Statement.actsAll f.body).all Statement.isCall

/-- The value of a call of a declared function, which is zero if the body gives
none. -/
def call (policy : Policy) (depth : Nat) (f : Subroutine) (args : List Float) (t : Table) :
    Evaluation Float := do
  let (_, value) ← f.activate policy depth args t
  return value.getD 0.0

/-- This is what the expression that calls the function comes to. -/
theorem evaluate_call {policy : Policy} {depth : Nat} {f : Subroutine} {t : Table}
    {callee : String} (hBuiltin : Builtin.ofName? callee = none)
    (hFunction : t.functions[callee]? = some f) (args : List Expr) :
    (Expr.call callee args).evaluate policy (activate policy depth) t = (do
      let values ← Expr.evaluateAll policy (activate policy depth) t args
      f.call policy depth values t) := by
  rw [Expr.evaluate, hBuiltin, hFunction]
  rfl

end Subroutine

namespace Table

/-- Tables that have the same variables under some names, and no procedures under
others. -/
structure BoundAlike (names : List String) (invoked : String → Prop) (t t' : Table) : Prop where
  sound : t.Sound
  sound' : t'.Sound
  vars : ∀ x ∈ names, t'.vars[x]? = t.vars[x]?
  procedures : ∀ name, invoked name → t.procedures[name]? = none
  procedures' : ∀ name, invoked name → t'.procedures[name]? = none
  called : t'.callDepth = 0 ↔ t.callDepth = 0

namespace BoundAlike

variable {names : List String} {invoked : String → Prop} {t t' : Table}

theorem mono {fewer : List String} (h : BoundAlike names invoked t t')
    (hFewer : ∀ x ∈ fewer, x ∈ names) : BoundAlike fewer invoked t t' :=
  { h with vars := fun x hx => h.vars x (hFewer x hx) }

/-- One more name has the same variable once it was assigned. -/
theorem insert (h : BoundAlike names invoked t t') {x : String}
    (hGlobal : Constant.contains x = false) (v : Variable) :
    BoundAlike (x :: names) invoked { t with vars := t.vars.insert x v }
      { t' with vars := t'.vars.insert x v } :=
  { h with
    sound := h.sound.insert hGlobal v
    sound' := h.sound'.insert hGlobal v
    vars := fun y hy => by
      simp only [Std.ExtTreeMap.getElem?_insert]
      split
      · rfl
      · next hOther =>
          have hIn : y ∈ names := by
            rcases List.mem_cons.mp hy with rfl | hIn
            · exact absurd (Std.ReflCmp.compare_self) hOther
            · exact hIn
          exact h.vars y hIn }

theorem merge (h : BoundAlike names invoked t t') {scope scope' : Table}
    (hScope : BoundAlike names invoked scope scope') (shadows : List String) :
    BoundAlike names invoked (t.merge scope shadows).2 (t'.merge scope' shadows).2 := by
  have hFrame := merge_frame t scope shadows
  have hFrame' := merge_frame t' scope' shadows
  exact {
    sound := hFrame.sound h.sound
    sound' := hFrame'.sound h.sound'
    vars := fun x hx => by
      rw [merge_vars h.sound, merge_vars h.sound', h.vars x hx, Table.get?, Table.get?,
        hScope.vars x hx]
    procedures := by simpa only [hFrame.procedures] using h.procedures
    procedures' := by simpa only [hFrame'.procedures] using h.procedures'
    called := by simpa only [hFrame.callDepth, hFrame'.callDepth] using h.called }

theorem congruence (params : List String) (invoked : String → Prop) :
    (Vocabulary.ofParameters params).Congruence (BoundAlike params invoked) where
  sound h := h.sound
  sound' h := h.sound'
  merge shadows h hScope := h.merge hScope shadows
  vars h _ hx := h.vars _ (List.contains_iff_mem.mp hx)
  insert h _ _ hGlobal v := (h.insert hGlobal v).mono fun _ hy => List.mem_cons_of_mem _ hy
  called h := h.called

/-- Arguments are bound alike wherever the same names are constant. Each name
that was bound has the same variable from then on. -/
theorem assignAll (h : BoundAlike names invoked t t') {values : List (String × Float)}
    (hConstants : ∀ entry ∈ values, t'.constant? entry.1 = t.constant? entry.1) :
    Agree (BoundAlike (values.map Prod.fst ++ names) invoked) (t.assignAll values)
      (t'.assignAll values) := by
  induction values generalizing t t' names with
  | nil => exact .ok h
  | cons entry rest ih =>
      obtain ⟨x, a⟩ := entry
      refine (assign_agree (hConstants (x, a) List.mem_cons_self) a).bind ?_
      rintro _ _ ⟨hGlobal, v, rfl, rfl⟩
      have hRest (entry : String × Float) (hEntry : entry ∈ rest) :
          constant? { t' with vars := t'.vars.insert x v } entry.1 =
            constant? { t with vars := t.vars.insert x v } entry.1 := by
        have hBefore := hConstants entry (List.mem_cons_of_mem _ hEntry)
        simp only [constant?, Std.ExtTreeMap.getElem?_insert] at hBefore ⊢
        split
        · rfl
        · exact hBefore
      refine (ih (h.insert hGlobal v) hRest).mono fun u u' hu => hu.mono fun y hy => ?_
      rw [List.map_cons, List.cons_append, List.mem_cons, List.mem_append] at hy
      rw [List.mem_append, List.mem_cons]
      tauto

end BoundAlike

end Table

variable {policy : Policy} {activate : Activation} {params : List String}
  {invoked : String → Prop} {Q : Run → Run → Prop}

/-- No declared function is called, so nothing has to be known about any. -/
theorem Vocabulary.callsAlike_ofParameters (params : List String) (R : Table → Table → Prop)
    (Q : Run → Run → Prop) (activate : Activation) :
    (Vocabulary.ofParameters params).CallsAlike R Q activate where
  functions _ hCallee hBuiltin := by simp [ofParameters, hBuiltin] at hCallee
  uncallable _ hCallee hBuiltin := by simp [ofParameters, hBuiltin] at hCallee
  activate _ hCallee hBuiltin := by simp [ofParameters, hBuiltin] at hCallee

/-- A call that stands by itself finds no procedure and goes to the function that
every program knows. -/
theorem Statement.indifferent_call (hQ : Run.Congruence policy Q) {name : String}
    {args : List Expr} (hInvoked : invoked name)
    (hWithin : (Statement.call name args).within (.ofParameters params) = true) :
    (Statement.call name args).Indifferent (Table.BoundAlike params invoked) Q policy activate := by
  refine Execution.coupled_get.bind fun m m' hm => ?_
  rw [hm.table.procedures name hInvoked, hm.table.procedures' name hInvoked]
  have hValue := (Expr.call name args).indifferent_of_within
    (Table.BoundAlike.congruence params invoked) hQ
    (Vocabulary.callsAlike_ofParameters params _ Q activate) hWithin
  exact (Execution.coupled_reading hValue).bindSame fun a => .pure rfl

namespace Subroutine

/-- The names of the procedures that a body would call, if there were any. -/
def Invokes (f : Subroutine) (name : String) : Prop :=
  ∃ args, Statement.call name args ∈ Statement.actsAll f.body

theorem indifferent_body (hQ : Run.Congruence policy Q) {f : Subroutine}
    (hBody : f.selfContained = true) :
    (Statement.block f.body).Indifferent (Table.BoundAlike f.params f.Invokes) Q policy
      activate := by
  obtain ⟨hWithin, hActs⟩ := Bool.and_eq_true_iff.mp hBody
  refine Statement.indifferent_of_acts (Table.BoundAlike.congruence f.params f.Invokes) hQ
    (Vocabulary.callsAlike_ofParameters f.params _ Q activate) (.block f.body) hWithin
    fun act hAct _ hNames => ?_
  have hCall := List.all_eq_true.mp hActs act hAct
  cases act with
  | call name args => exact Statement.indifferent_call hQ ⟨args, hAct⟩ hNames
  | _ => cases hCall

/-- The induction of the body is all that a call needs once its parameters are
bound. -/
theorem coupled_call (hQ : Run.Congruence policy Q) {f : Subroutine}
    (hBody : f.selfContained = true) (depth : Nat) (args : List Float) {t t' : Table}
    (hEntered : t.enterCall.BoundAlike [] f.Invokes t'.enterCall)
    (hConstants : ∀ x ∈ f.params, t'.constant? x = t.constant? x) :
    Coupled Q Eq (f.call policy depth args t) (f.call policy depth args t') := by
  cases depth with
  | zero => exact .throw _
  | succ depth =>
      have hBound (hCount : args.length = f.params.length) :
          Agree (Table.BoundAlike f.params f.Invokes)
            (t.enterCall.assignAll (f.params.zip args))
            (t'.enterCall.assignAll (f.params.zip args)) := by
        refine (hEntered.assignAll fun entry hEntry => ?_).mono fun u u' hu => ?_
        · exact hConstants entry.1 (List.of_mem_zip hEntry).1
        · rwa [List.map_fst_zip (Nat.le_of_eq hCount.symm), List.append_nil] at hu
      refine (coupled_activate_succ hBound (indifferent_body hQ hBody)).bind ?_
      rintro ⟨_, value⟩ ⟨_, value'⟩ ⟨_, hSame⟩
      exact .pure (congrArg (·.getD 0.0) hSame)

end Subroutine

/-- Take a function whose body declares nothing, uses its parameters only, and
calls only functions that every program knows. Let two tables have the same
constants in the place of its parameters, and no procedures in the place of
functions that it calls by a statement. Then a call comes to the same value or
the same failure on both, and leaves the same run. No variable of the caller
makes a difference, not even one that has the name of a parameter. -/
theorem parameters_local (policy : Policy) (depth : Nat) (f : Subroutine) (args : List Float)
    (t t' : Table) (run : Run) (hBody : f.selfContained = true) (ht : t.Reachable)
    (ht' : t'.Reachable) (hConstants : ∀ x ∈ f.params, t'.constant? x = t.constant? x)
    (hProcedures : ∀ name, f.Invokes name →
      t.procedures[name]? = none ∧ t'.procedures[name]? = none) :
    runOn (f.call policy depth args t) run = runOn (f.call policy depth args t') run := by
  have hEntered : t.enterCall.BoundAlike [] f.Invokes t'.enterCall := {
    sound := Table.sound_of_vars_eq rfl ht.sound
    sound' := Table.sound_of_vars_eq rfl ht'.sound
    vars := fun _ hIn => absurd hIn List.not_mem_nil
    procedures := fun name hName => (hProcedures name hName).1
    procedures' := fun name hName => (hProcedures name hName).2
    called := by simp [Table.enterCall] }
  exact (f.coupled_call (Run.congruence_eq policy) hBody depth args hEntered hConstants).eq run

/-- Doubles one parameter as often as the other says, and takes the size of it. -/
def doubling : Subroutine :=
  ⟨"double", ["x", "n"],
    [.whileLoop (.binary .gt (.name "n") (.number 0 "0")) (.block
      [.expression (.binary .assign (.name "x") (.binary .mul (.name "x") (.number 2 "2"))),
       .expression (.binary .assign (.name "n") (.binary .sub (.name "n") (.number 1 "1")))]),
     .call "abs" [.name "x"]]⟩

/-- The caller has a variable of its own under the name of a parameter, and a
constant under another name. -/
theorem parameters_local_doubling :
    let policy := Policy.usual (some 5) fun _ => 0.5
    let declared := ((Statement.letVar "x" (some (.number 5 "5"))).run policy ⟨Table.empty, {}⟩).2
    let caller := ((Statement.constVar "y" (.number 7 "7")).run policy declared).2.table
    doubling.selfContained = true ∧ caller.Reachable ∧ caller.get? "x" = some 5 ∧
    caller.isConstant "y" = true ∧
    (∀ x ∈ doubling.params, caller.constant? x = Table.empty.constant? x) ∧
    (∀ name, doubling.Invokes name →
      Table.empty.procedures[name]? = none ∧ caller.procedures[name]? = none) ∧
    (runOn (doubling.call policy 2 [-3, 2] Table.empty) {}).1 = .ok 12 ∧
    runOn (doubling.call policy 2 [-3, 2] Table.empty) {} =
      runOn (doubling.call policy 2 [-3, 2] caller) {} := by
  intro policy declared caller
  have hReachable : caller.Reachable := .run policy _ (.run policy _ .empty)
  have hFree : ∀ x ∈ doubling.params, (caller.constant? x).isNone = true := by decide +kernel
  have hConstants (x : String) (hx : x ∈ doubling.params) :
      caller.constant? x = Table.empty.constant? x := by
    rw [Option.isNone_iff_eq_none.mp (hFree x hx)]
    simp [Table.constant?, Table.empty]
  have hUndeclared : caller.procedures = ∅ := rfl
  have hProcedures (name : String) (_ : doubling.Invokes name) :
      Table.empty.procedures[name]? = none ∧ caller.procedures[name]? = none := by
    simp [hUndeclared, Table.empty]
  refine ⟨by decide, hReachable, by decide +kernel, by decide +kernel, hConstants, hProcedures,
    by decide +kernel, ?_⟩
  exact parameters_local policy 2 doubling [-3, 2] Table.empty caller {} (by decide) .empty
    hReachable hConstants hProcedures

/-- A constant of the caller stands in the way of a parameter of the same name,
and a procedure of the caller in the way of a function that is called by a
statement. So neither condition can be left out. -/
theorem caller_shows_in_call :
    let policy := Policy.usual none fun _ => 0.5
    let echo : Subroutine := ⟨"echo", ["x"], [.expression (.name "x")]⟩
    let size : Subroutine := ⟨"size", ["x"], [.call "abs" [.name "x"]]⟩
    let frozen := ((Statement.constVar "x" (.number 1 "1")).run policy ⟨Table.empty, {}⟩).2.table
    let usurped :=
      ((Statement.define .procedure "abs" ["x"] []).run policy ⟨Table.empty, {}⟩).2.table
    frozen.Reachable ∧ usurped.Reachable ∧ Constant.contains "x" = false ∧
    echo.selfContained = true ∧ size.selfContained = true ∧
    (runOn (echo.call policy 2 [2] Table.empty) {}).1 = .ok 2 ∧
    (runOn (echo.call policy 2 [2] frozen) {}).1 = .error (.symbol (.immutableConstant "x")) ∧
    (runOn (size.call policy 2 [2] Table.empty) {}).1 = .ok 2 ∧
    (runOn (size.call policy 2 [2] usurped) {}).1 = .ok 0 := by
  intro policy echo size frozen usurped
  exact ⟨.run policy _ .empty, .run policy _ .empty, by decide, by decide, by decide,
    by decide +kernel, by decide +kernel, by decide +kernel, by decide +kernel⟩

end Reckoner
