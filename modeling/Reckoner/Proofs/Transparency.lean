import Reckoner.Proofs.Constancy
import Reckoner.Proofs.Merging
import Reckoner.Proofs.Representation
import Reckoner.Proofs.ScopeDiscipline

/-! Blocks that declare nothing. Such a block works on the names of the table
around it, so it should make no difference that it works on a copy. It makes
none but this: a zero that only changes its sign is equal to what it was, and
is not copied back. -/
namespace Reckoner

open Attempt

namespace Number

/-- The two zeros, one of each sign. They are equal as numbers. -/
def Opposed (a b : Float) : Prop := (a = 0 ∧ b = -0) ∨ (a = -0 ∧ b = 0)

theorem Opposed.beq {a b : Float} (h : Opposed a b) : (a == b) = true := by
  rcases h with ⟨rfl, rfl⟩ | ⟨rfl, rfl⟩ <;> decide

theorem Opposed.ne {a b : Float} (h : Opposed a b) : a ≠ b := by
  rcases h with ⟨rfl, rfl⟩ | ⟨rfl, rfl⟩ <;> decide

/-- Only zeros can be equal as numbers and still be told apart. -/
theorem Same.eq_or_opposed {a b : Float} (h : Same a b) : a = b ∨ Opposed a b := by
  rcases h with hEqual | ⟨ha, hb⟩
  · obtain ⟨_, _, hCases⟩ := Float.beq_iff_ne_nan_and_eq.mp hEqual
    exact hCases
  · exact .inl ((isNaN_iff.mp ha).trans (isNaN_iff.mp hb).symm)

end Number

/-- What is copied back to a variable is the value in the scope, if this is a
single and a constant has kept its number there, or else nothing, where the two
are zeros of opposite sign. -/
theorem Variable.restored_eq_or_opposed {v w : Variable} {shadowed : Prop} [Decidable shadowed]
    (hVisible : ¬ shadowed) (hConstant : w.constant = v.constant)
    (hSingle : Number.toSingle w.value = w.value)
    (hKept : v.constant = true → Number.Same v.value w.value) :
    v.restored shadowed (some w.value) = w ∨
      (Number.Opposed v.value w.value ∧ v.restored shadowed (some w.value) = v) := by
  have hSameValue (h : v.value = w.value) : v = w := by
    obtain ⟨value, constant⟩ := v
    cases h
    cases hConstant
    rfl
  simp only [Variable.restored]
  by_cases hStays : (v.value == w.value) = true ∨ v.constant = true
  · have hSame : Number.Same v.value w.value := hStays.elim .inl hKept
    rw [if_pos (.inr hStays)]
    exact hSame.eq_or_opposed.imp hSameValue fun hOpposed => ⟨hOpposed, rfl⟩
  · rw [if_neg (not_or.mpr ⟨hVisible, hStays⟩), hSingle, ← hConstant]
    exact .inl rfl

namespace Table

/-- The tables differ in the values of variables and in nothing else. -/
structure SameOutline (t t' : Table) : Prop where
  names : ∀ name, t'.contains name = t.contains name
  constants : ∀ name, t'.isConstant name = t.isConstant name
  functions : t'.functions = t.functions
  procedures : t'.procedures = t.procedures
  callDepth : t'.callDepth = t.callDepth

namespace SameOutline

variable {t t' t'' : Table}

theorem refl (t : Table) : SameOutline t t := ⟨fun _ => rfl, fun _ => rfl, rfl, rfl, rfl⟩

theorem symm (h : SameOutline t t') : SameOutline t' t where
  names name := (h.names name).symm
  constants name := (h.constants name).symm
  functions := h.functions.symm
  procedures := h.procedures.symm
  callDepth := h.callDepth.symm

theorem trans (first : SameOutline t t') (second : SameOutline t' t'') : SameOutline t t'' where
  names name := (second.names name).trans (first.names name)
  constants name := (second.constants name).trans (first.constants name)
  functions := second.functions.trans first.functions
  procedures := second.procedures.trans first.procedures
  callDepth := second.callDepth.trans first.callDepth

/-- A variable of one table is one of the other, and constant in both or in none. -/
theorem exists_var (h : SameOutline t t') {name : String} {v : Variable}
    (hv : t.vars[name]? = some v) :
    ∃ w, t'.vars[name]? = some w ∧ w.constant = v.constant := by
  have hName := h.names name
  have hConstant := h.constants name
  rw [contains_eq_isSome, contains_eq_isSome, hv] at hName
  obtain ⟨w, hw⟩ := Option.isSome_iff_exists.mp hName
  simp only [isConstant, hv, hw, Option.map_some, Option.getD_some] at hConstant
  exact ⟨w, hw, hConstant⟩

theorem vars_eq_none (h : SameOutline t t') {name : String} (hNone : t.vars[name]? = none) :
    t'.vars[name]? = none := by
  have hName := h.names name
  rw [contains_eq_isSome, contains_eq_isSome, hNone] at hName
  exact Option.not_isSome_iff_eq_none.mp (Bool.eq_false_iff.mp hName)

/-- Nothing is left to differ if the variables are the same. -/
theorem eq_of_vars (h : SameOutline t t')
    (hVars : ∀ name : String, t'.vars[name]? = t.vars[name]?) : t' = t :=
  eq_of_parts (Std.ExtTreeMap.ext_getElem? hVars) h.functions h.procedures h.callDepth

end SameOutline

theorem Frame.sameOutline {shadows : List String} {t t' : Table} (h : Frame shadows t t') :
    SameOutline t t' := ⟨h.names, h.constants, h.functions, h.procedures, h.callDepth⟩

theorem DiffersAt.sameOutline {x : String} {t t' : Table} (h : DiffersAt x t t') :
    SameOutline t t' := ⟨h.names, h.constants, h.functions, h.procedures, h.callDepth⟩

/-- Copying a scope back whole gives the scope itself, except where a zero has
changed its sign. -/
theorem merge_vars_eq_or_opposed {t scope : Table} (hSound : t.Sound) (hScope : scope.WellFormed)
    (hOutline : t.SameOutline scope) (hConstants : t.KeepsConstants scope) (name : String) :
    (t.merge scope []).2.vars[name]? = scope.vars[name]? ∨
      ∃ v w : Variable, t.vars[name]? = some v ∧ scope.vars[name]? = some w ∧
        Number.Opposed v.value w.value ∧ (t.merge scope []).2.vars[name]? = some v := by
  rw [merge_vars hSound]
  cases hv : t.vars[name]? with
  | none => exact .inl (hOutline.vars_eq_none hv).symm
  | some v =>
      obtain ⟨w, hw, hConstant⟩ := hOutline.exists_var hv
      have hKept (h : v.constant = true) : Number.Same v.value w.value := by
        obtain ⟨_, a, b, ha, hb, hSame⟩ := hConstants name (isConstant_iff.mpr ⟨v, hv, h⟩)
        simp only [get?, hv, hw, Option.map_some, Option.some.injEq] at ha hb
        exact ha ▸ hb ▸ hSame
      have hValue : scope.get? name = some w.value := by rw [get?, hw]; rfl
      rw [hValue, hw, Option.map_some]
      have hVisible : name ∉ ([] : List String) := List.not_mem_nil
      rcases Variable.restored_eq_or_opposed hVisible hConstant
        (hScope.singles name w hw) hKept with hRestored | ⟨hOpposed, hRestored⟩
      · exact .inl (congrArg some hRestored)
      · exact .inr ⟨v, w, rfl, rfl, hOpposed, congrArg some hRestored⟩

end Table

namespace Statement

open Execution

def isDefinition : Statement → Bool
  | define .. => true
  | _ => false

/-- A statement that neither declares nor defines anything in the scope it runs
in changes values only. -/
theorem run_sameOutline (policy : Policy) {s : Statement} (hDeclares : s.declares = [])
    (hDefines : s.isDefinition = false) (m : Machine) :
    m.table.SameOutline (s.run policy m).2.table := by
  have hScoped (h : s.isScoped = true) : m.table.SameOutline (s.run policy m).2.table :=
    (scoped_frame policy h m).sameOutline
  have hQuiet (h : Meets (fun m' => m'.table = m.table) (s.execute policy policy.activation)
      (fun _ m' => m'.table = m.table) (fun _ m' => m'.table = m.table)) :
      m.table.SameOutline (s.run policy m).2.table := by
    have hTable : (s.run policy m).2.table = m.table := h.state rfl
    rw [hTable]
    exact .refl m.table
  cases s with
  | expression e =>
      rcases expression_differs policy e m with hSame | ⟨x, right, _, hDiffers⟩
      · rw [hSame]
        exact .refl m.table
      · exact hDiffers.sameOutline
  | block body => exact hScoped rfl
  | ifThen test yes => exact hScoped rfl
  | ifElse test yes no => exact hScoped rfl
  | whileLoop test body => exact hScoped rfl
  | call name args => exact hScoped rfl
  | breakLoop => exact hQuiet (.pure fun _ hm => hm)
  | continueLoop => exact hQuiet (.pure fun _ hm => hm)
  | returnValue e =>
      refine hQuiet (.bind (meets_get m.table _) fun seen => .fact fun _ => ?_)
      split
      · exact .throw fun _ hm => hm
      · exact .bind (meets_optional (· = m.table) e) fun _ => .pure fun _ hm => hm
  | endRun e =>
      refine hQuiet (.bind (meets_optional (· = m.table) e) fun value => ?_)
      refine .bind (Q := fun _ (m' : Machine) => m'.table = m.table) (.modify fun _ hm => hm)
        fun _ => ?_
      exact .pure fun _ hm => hm
  | letVar name init => cases hDeclares
  | constVar name init => cases hDeclares
  | define kind name params body => cases hDefines

/-- What each statement keeps, on whatever machine it runs, statements in turn keep. -/
theorem executeAll_keeps {P : Table → Prop} (policy : Policy) {body : List Statement}
    (h : ∀ s ∈ body, ∀ m : Machine, P m.table → P (s.run policy m).2.table)
    (value : Option Float) :
    Meets (fun m => P m.table) (executeAll policy policy.activation body value)
      (fun _ m => P m.table) (fun _ m => P m.table) := by
  induction body generalizing value with
  | nil => exact .pure fun _ hm => hm
  | cons s rest ih =>
      refine .bind (.of_state fun m hm => h s List.mem_cons_self m hm) fun outcome => ?_
      refine .bind (meets_halted (fun m => P m.table) _) fun ended => ?_
      split
      · exact .pure fun _ hm => hm
      · exact ih (fun s hs => h s (List.mem_cons_of_mem _ hs)) _

/-- A block that declares nothing runs its statements and copies everything back. -/
theorem block_ok {policy : Policy} {body : List Statement} {m m' : Machine} {outcome : Outcome}
    (hShadows : (block body).shadows = []) (h : (block body).run policy m = (.ok outcome, m')) :
    ∃ direct, runOn (executeAll policy policy.activation body none) m = (.ok outcome, direct) ∧
      m' = ⟨(m.table.merge direct.table []).2, direct.run⟩ := by
  change runOn ((block body).execute policy policy.activation) m = _ at h
  rw [execute, runOn_inScope, hShadows] at h
  rcases hBody : runOn (executeAll policy policy.activation body none) m with ⟨e | a, direct⟩
  · rw [hBody] at h
    cases h
  · rw [hBody] at h
    obtain ⟨hOutcome, rfl⟩ := Prod.mk.inj h
    cases hMerge : (m.table.merge direct.table []).1 with
    | error e =>
        rw [hMerge] at hOutcome
        cases hOutcome
    | ok _ =>
        rw [hMerge] at hOutcome
        cases hOutcome
        exact ⟨direct, rfl, rfl⟩

end Statement

/-- If a block that neither declares nor defines anything succeeds, then its
statements succeed one after another on the table itself, with the same outcome
and the same state of the run. The tables that are left differ at most in the
signs of zeros: they are the same exactly if no variable goes from one zero to
the other. -/
theorem block_transparent (policy : Policy) (body : List Statement) (m : Machine)
    (hReachable : m.table.Reachable) (hShadows : (Statement.block body).shadows = [])
    (hDefines : ∀ s ∈ body, s.isDefinition = false) {outcome : Outcome} {m' : Machine}
    (hRun : (Statement.block body).run policy m = (.ok outcome, m')) :
    ∃ direct, runOn (Statement.executeAll policy policy.activation body none) m =
        (.ok outcome, direct) ∧
      m'.run = direct.run ∧ direct.table.SameOutline m'.table ∧
      (∀ name, m'.table.get? name = direct.table.get? name ∨
        ∃ a b, m.table.get? name = some a ∧ direct.table.get? name = some b ∧
          Number.Opposed a b ∧ m'.table.get? name = some a) ∧
      (m'.table = direct.table ↔ ∀ name a b, m.table.get? name = some a →
        direct.table.get? name = some b → ¬ Number.Opposed a b) := by
  obtain ⟨direct, hDirect, rfl⟩ := Statement.block_ok hShadows hRun
  have hOutline : m.table.SameOutline direct.table := by
    have hSteps := Statement.executeAll_keeps (P := m.table.SameOutline) policy
      (fun s hs m' hm' => hm'.trans (s.run_sameOutline policy ?_ (hDefines s hs) m')) none
    · exact hSteps.ok (.refl m.table) hDirect
    · exact List.flatMap_eq_nil_iff.mp hShadows s hs
  have hWellFormed : direct.table.WellFormed :=
    (Statement.executeAll_keeps policy
      (fun s _ _ => s.run_keeps Table.stable_wellFormed policy) none).ok
      hReachable.wellFormed hDirect
  have hConstants : m.table.KeepsConstants direct.table :=
    ((Statement.executeAll_keeps (P := fun t => t.Sound ∧ m.table.KeepsConstants t) policy
      (fun s _ _ => s.run_keeps (Table.stable_keepsConstants m.table) policy) none).ok
      ⟨hReachable.sound, Table.KeepsConstants.of_vars_eq rfl⟩ hDirect).2
  have hMerged : direct.table.SameOutline (m.table.merge direct.table []).2 :=
    hOutline.symm.trans (Table.merge_frame m.table direct.table []).sameOutline
  have hVars := Table.merge_vars_eq_or_opposed hReachable.sound hWellFormed hOutline hConstants
  refine ⟨direct, hDirect, rfl, hMerged, fun name => ?_, fun hSame name a b ha hb hOpposed => ?_,
    fun hKept => hMerged.eq_of_vars fun name => ?_⟩
  · rcases hVars name with hSame | ⟨v, w, hv, hw, hOpposed, hStays⟩
    · exact .inl (congrArg (Option.map _) hSame)
    · exact .inr ⟨v.value, w.value, by simp [Table.get?, hv], by simp [Table.get?, hw], hOpposed,
        by simp [Table.get?, hStays]⟩
  · have hEqual : (m.table.merge direct.table []).2 = direct.table := hSame
    have hStays := Table.merge_get?_of_beq hReachable.sound [] ha hb hOpposed.beq
    rw [hEqual, hb, Option.some.injEq] at hStays
    exact hOpposed.ne hStays.symm
  · rcases hVars name with hSame | ⟨v, w, hv, hw, hOpposed, _⟩
    · exact hSame
    · exact absurd hOpposed (hKept name v.value w.value (by simp [Table.get?, hv])
        (by simp [Table.get?, hw]))

/-- Counts a variable up to two and turns the sign of another round. -/
def countAndNegate (counted negated : String) : List Statement :=
  [.whileLoop (.binary .lt (.name counted) (.number 2 "2"))
    (.expression (.binary .assign (.name counted)
      (.binary .add (.name counted) (.number 1 "1")))),
   .expression (.binary .assign (.name negated) (.unary .sub (.name negated)))]

/-- Both variables change, but one of them is a zero: it stays positive, while
the other is copied back. -/
theorem block_transparent_countAndNegate :
    let policy := Policy.usual none fun _ => 0.5
    let start := ((Statement.letVar "n" none).run policy ⟨Table.empty, {}⟩).2
    let m := ((Statement.letVar "x" none).run policy start).2
    let body := countAndNegate "n" "x"
    let after := ((Statement.block body).run policy m).2
    m.table.Reachable ∧ (Statement.block body).shadows = [] ∧
    (∀ s ∈ body, s.isDefinition = false) ∧
    ((Statement.block body).run policy m).1 = .ok ⟨some (-0), .normal⟩ ∧
    after.table.get? "n" = some 2 ∧ after.table.get? "x" = some 0 ∧
    ∃ direct, runOn (Statement.executeAll policy policy.activation body none) m =
        (.ok ⟨some (-0), .normal⟩, direct) ∧
      after.run = direct.run ∧ direct.table.SameOutline after.table ∧
      (∀ name, after.table.get? name = direct.table.get? name ∨
        ∃ a b, m.table.get? name = some a ∧ direct.table.get? name = some b ∧
          Number.Opposed a b ∧ after.table.get? name = some a) ∧
      (after.table = direct.table ↔ ∀ name a b, m.table.get? name = some a →
        direct.table.get? name = some b → ¬ Number.Opposed a b) := by
  intro policy start m body after
  have hReachable : m.table.Reachable := .run policy _ (.run policy _ .empty)
  have hOutcome : ((Statement.block body).run policy m).1 = .ok ⟨some (-0), .normal⟩ := by
    decide +kernel
  have hRun : (Statement.block body).run policy m = (.ok ⟨some (-0), .normal⟩, after) := by
    rw [← hOutcome]
  refine ⟨hReachable, rfl, by decide +kernel, hOutcome, by decide +kernel, by decide +kernel, ?_⟩
  exact block_transparent policy body m hReachable rfl (by decide +kernel) hRun

/-- Working on a copy makes no difference to a block. -/
def RunsInPlace (policy : Policy) (body : List Statement) (m : Machine) : Prop :=
  ∀ outcome m', (Statement.block body).run policy m = (.ok outcome, m') →
    runOn (Statement.executeAll policy policy.activation body none) m = (.ok outcome, m')

/-- It does make a difference to a zero of which the sign is turned round. -/
theorem not_runsInPlace :
    let policy := Policy.usual none fun _ => 0.5
    let m := ((Statement.letVar "x" none).run policy ⟨Table.empty, {}⟩).2
    let body := [Statement.expression (.binary .assign (.name "x") (.unary .sub (.name "x")))]
    m.table.Reachable ∧ (Statement.block body).shadows = [] ∧
    (∀ s ∈ body, s.isDefinition = false) ∧ ¬ RunsInPlace policy body m := by
  intro policy m body
  refine ⟨.run policy _ .empty, rfl, by decide +kernel, fun hSame => ?_⟩
  have hBlock : ((Statement.block body).run policy m).1 = .ok ⟨some (-0), .normal⟩ := by
    decide +kernel
  have hDirect := hSame ⟨some (-0), .normal⟩ ((Statement.block body).run policy m).2
    (by rw [← hBlock])
  have hSign :
      (runOn (Statement.executeAll policy policy.activation body none) m).2.table.get? "x" ≠
        ((Statement.block body).run policy m).2.table.get? "x" := by
    decide +kernel
  exact hSign (by rw [hDirect])

end Reckoner
