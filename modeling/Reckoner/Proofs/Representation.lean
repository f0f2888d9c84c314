import Reckoner.Proofs.Reachable
import Reckoner.Proofs.Singles

/-! How tables are made. Every number in a table is a single, no name in it is
that of a constant which every program knows, and every subroutine is stored
under its own name. No operation on tables and no run breaks this, whether it
succeeds or fails. Copying back relies on it, and so never fails half-way. -/
namespace Reckoner

namespace Table

theorem mem_constants {t : Table} {name : String} :
    name ∈ t.constants ↔ ∃ v, t.vars[name]? = some v ∧ v.constant = true := by
  simp only [constants, List.mem_filterMap, Prod.exists, Option.ite_none_right_eq_some,
    Option.some.injEq, Std.ExtTreeMap.mem_toList_iff_getElem?_eq_some]
  constructor
  · rintro ⟨name, v, hv, hConstant, rfl⟩
    exact ⟨v, hv, hConstant⟩
  · rintro ⟨v, hv, hConstant⟩
    exact ⟨name, v, hv, hConstant, rfl⟩

/-- A constant is in the table, for it is one of its variables. -/
theorem contains_of_mem_constants {t : Table} {name : String} (h : name ∈ t.constants) :
    t.contains name = true := by
  obtain ⟨v, hv, _⟩ := mem_constants.mp h
  rw [contains_eq_isSome, hv]
  rfl

/-- Every subroutine is found under its own name. -/
def NamesOwn (known : Std.ExtTreeMap String Subroutine) : Prop :=
  ∀ (name : String) (s : Subroutine), known[name]? = some s → s.name = name

structure WellFormed (t : Table) : Prop where
  sound : t.Sound
  singles : ∀ (name : String) (v : Variable),
    t.vars[name]? = some v → Number.toSingle v.value = v.value
  functions : NamesOwn t.functions
  procedures : NamesOwn t.procedures

/-- Only the variables and the subroutines matter. -/
theorem WellFormed.congr {t t' : Table} (h : t.WellFormed) (hVars : t'.vars = t.vars)
    (hFunctions : t'.functions = t.functions) (hProcedures : t'.procedures = t.procedures) :
    t'.WellFormed where
  sound := sound_of_vars_eq hVars h.sound
  singles := hVars ▸ h.singles
  functions := hFunctions ▸ h.functions
  procedures := hProcedures ▸ h.procedures

/-- There is nothing in the empty table that could be wrong. -/
theorem wellFormed_empty (depth : Nat) :
    ({ empty with callDepth := depth } : Table).WellFormed where
  sound name hName := by simp [empty, contains] at hName
  singles name v hv := by simp [empty] at hv
  functions name s hs := by simp [empty] at hs
  procedures name s hs := by simp [empty] at hs

/-- Storing a single under a name that no constant has which every program knows. -/
theorem WellFormed.insert {t : Table} (h : t.WellFormed) {name : String} {v : Variable}
    (hName : Constant.contains name = false) (hSingle : Number.toSingle v.value = v.value) :
    ({ t with vars := t.vars.insert name v } : Table).WellFormed where
  sound := h.sound.insert hName v
  singles := insert_entries h.singles hSingle
  functions := h.functions
  procedures := h.procedures

/-- What is stored is rounded, and the name was checked. -/
theorem WellFormed.assign {t t' : Table} {name : String} {value : Float} (h : t.WellFormed)
    (stored : t.assign name value = .ok t') : t'.WellFormed := by
  obtain ⟨hName, _, rfl⟩ := assign_ok stored
  exact h.insert hName (Number.toSingle_toSingle value)

theorem WellFormed.declareConstant {t t' : Table} {name : String} {value : Float}
    (h : t.WellFormed) (stored : t.declareConstant name value = .ok t') : t'.WellFormed := by
  obtain ⟨hName, _, rfl⟩ := declareConstant_ok stored
  exact h.insert hName (Number.toSingle_toSingle value)

/-- A subroutine is stored under the name that it has. -/
theorem WellFormed.declare {t t' : Table} {kind : Subroutine.Kind} {s : Subroutine}
    (h : t.WellFormed) (stored : t.declare kind s = .ok t') : t'.WellFormed := by
  rcases declare_ok stored with rfl | rfl
  · exact ⟨h.sound, h.singles, insert_entries h.functions rfl, h.procedures⟩
  · exact ⟨h.sound, h.singles, h.functions, insert_entries h.procedures rfl⟩

/-- What no single assignment breaks, copying back does not break. -/
theorem restoreAll_keeps {P : Table → Prop}
    (hAssign : ∀ t t' name value, P t → t.assign name value = .ok t' → P t')
    {t : Table} (hP : P t) (shadows : List String) (items : List (String × Float)) :
    P (t.restoreAll shadows items).2 := by
  induction items generalizing t with
  | nil => exact hP
  | cons item rest ih =>
      rw [restoreAll]
      split
      · next t' hRestore =>
          rcases restore_ok hRestore with rfl | ⟨stored, _⟩
          · exact ih hP
          · exact ih (hAssign t t' item.1 item.2 hP stored)
      · exact hP

theorem WellFormed.unfreeze {t : Table} (h : t.WellFormed) (name : String) :
    (t.unfreeze name).WellFormed := by
  unfold Table.unfreeze
  split
  · next v hv =>
      refine h.insert (h.sound name ?_) (h.singles name v hv)
      rw [contains_eq_isSome, hv]
      rfl
  · exact h

/-- One case for each change that a statement can make. -/
theorem stable_wellFormed : Stable WellFormed where
  sound _ h := h.sound
  change t t' h hChange := by
    cases hChange with
    | none => exact h
    | assign stored => exact h.assign stored
    | declareConstant stored => exact h.declareConstant stored
    | declare stored => exact h.declare stored
    | merge scope shadows =>
        exact restoreAll_keeps (fun _ _ _ _ h stored => h.assign stored) h shadows scope.items

/-- The induction is over the ways in which tables come about. -/
theorem Reachable.wellFormed {t : Table} (h : t.Reachable) : t.WellFormed := by
  induction h with
  | empty => exact wellFormed_empty 0
  | assign _ stored ih => exact ih.assign stored
  | declareConstant _ stored ih => exact ih.declareConstant stored
  | declare _ stored ih => exact ih.declare stored
  | enterCall _ ih => exact ih.congr rfl rfl rfl
  | merge shadows _ _ ih _ => exact stable_wellFormed.change _ _ ih (.merge _ shadows)
  | unfreeze name _ ih => exact ih.unfreeze name
  | @clear t _ _ => exact wellFormed_empty t.callDepth
  | run policy s _ ih => exact Statement.run_keeps stable_wellFormed policy s ih

end Table

/-- Each statement of a program leaves a reachable table, and so does the program
wherever it stops. -/
theorem execute_reachable (policy : Policy) (text : String) {m : Machine}
    (h : m.table.Reachable) : (execute policy text m).2.table.Reachable := by
  unfold execute
  split
  · next p _ => exact (p.execute_keeps policy (fun s _ _ hm => hm.run policy s) none).state h
  · exact h

/-- On every table that comes about. A number is a single if rounding leaves it
alone. The last two parts say that copying back between any two such tables is
completed, and that running a text on one of them, which may fail, leaves
another one. -/
theorem representation_invariant {t : Table} (hReachable : t.Reachable) :
    (∀ name ∈ t.constants, t.contains name = true) ∧
    (∀ name ∈ ["PI", "TAU", "E", "PHI", "SQRT2", "INFINITY"],
      t.contains name = false ∧ name ∉ t.constants) ∧
    (∀ name value, t.get? name = some value → Number.toSingle value = value) ∧
    (∀ (name : String) (s : Subroutine), t.functions[name]? = some s → s.name = name) ∧
    (∀ (name : String) (s : Subroutine), t.procedures[name]? = some s → s.name = name) ∧
    (∀ scope : Table, scope.Reachable → ∀ shadows, (t.merge scope shadows).1 = .ok ()) ∧
    (∀ policy text run, (execute policy text ⟨t, run⟩).2.table.Reachable) := by
  have hFormed := hReachable.wellFormed
  refine ⟨fun _ => Table.contains_of_mem_constants, ?_, ?_, hFormed.functions, hFormed.procedures,
    fun scope _ => Table.merge_isOk hFormed.sound scope, ?_⟩
  · intro name hName
    have hGlobal : Constant.contains name = true := by
      revert name
      decide
    have hAbsent : t.contains name = false := by
      rw [Bool.eq_false_iff]
      intro hContains
      rw [hFormed.sound name hContains] at hGlobal
      cases hGlobal
    refine ⟨hAbsent, fun hConstant => ?_⟩
    rw [Table.contains_of_mem_constants hConstant] at hAbsent
    cases hAbsent
  · intro name value hValue
    obtain ⟨v, hv, rfl⟩ := Option.map_eq_some_iff.mp hValue
    exact hFormed.singles name v hv
  · exact fun policy text run => execute_reachable policy text hReachable

/-- The run stores a tenth, which is not a single, and then divides by zero.
What it leaves is rounded, and can be copied back. -/
theorem representation_invariant_tenth :
    let policy := Policy.usual none fun _ => 0.5
    let result := execute policy "let x=.1 x=1/0" ⟨Table.empty, {}⟩
    result.1 = .error (.math .divisionByZero) ∧ result.2.table.Reachable ∧
    result.2.table.get? "x" = some (Number.toSingle 0.1) ∧ (0.1 : Float) ≠ Number.toSingle 0.1 ∧
    Number.toSingle (Number.toSingle 0.1) = Number.toSingle 0.1 ∧
    (Table.empty.merge result.2.table []).1 = .ok () := by
  intro policy result
  obtain ⟨_, _, _, _, _, hMerge, hRun⟩ := representation_invariant .empty
  have hReachable : result.2.table.Reachable := hRun policy _ {}
  obtain ⟨_, _, hSingles, _⟩ := representation_invariant hReachable
  have hTenth : result.2.table.get? "x" = some (Number.toSingle 0.1) := by decide +kernel
  exact ⟨by decide +kernel, hReachable, hTenth, by decide +kernel, hSingles "x" _ hTenth,
    hMerge _ hReachable []⟩

end Reckoner
