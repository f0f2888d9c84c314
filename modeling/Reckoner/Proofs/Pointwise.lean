import Reckoner.Proofs.Transparency
import Reckoner.Proofs.Vocabulary

/-! Copying back is a map over names. What a name of the table has afterwards
depends on what the table and the scope have under this name. So the order of the
names does not matter, and there is nothing left to do a second time. -/
namespace Reckoner

namespace Variable

variable {v : Variable} {shadowed : Prop} [Decidable shadowed]

/-- A single is copied as it is, unless the variable keeps its own value. -/
theorem restored_value {value : Float} (hSingle : Number.toSingle value = value) :
    (v.restored shadowed (some value)).value =
      if ¬ shadowed ∧ v.constant = false ∧ (v.value == value) = false then value else v.value := by
  rw [restored]
  split
  · next hStays =>
      rw [if_neg]
      rintro ⟨hVisible, hVariable, hChanged⟩
      simp [hVisible, hVariable, hChanged] at hStays
  · next hMoves =>
      simp only [not_or, Bool.not_eq_true] at hMoves
      rw [if_pos ⟨hMoves.1, hMoves.2.2, hMoves.2.1⟩]
      exact hSingle

/-- What was copied back once stays as it is. It may be copied again, if it is not
a number, but then it is the same. -/
theorem restored_restored (v : Variable) (given : Option Float) :
    (v.restored shadowed given).restored shadowed given = v.restored shadowed given := by
  cases given with
  | none => rfl
  | some value =>
      by_cases hStays : shadowed ∨ (v.value == value) = true ∨ v.constant = true
      · have hSame : v.restored shadowed (some value) = v := if_pos hStays
        rw [hSame, hSame]
      · have hMoved : v.restored shadowed (some value) = ⟨Number.toSingle value, v.constant⟩ :=
          if_neg hStays
        rw [hMoved, restored]
        split
        · rfl
        · rfl

end Variable

namespace Table

/-- The order in which the names of the scope come makes no difference. -/
theorem restoreAll_of_perm {t scope : Table} (hSound : t.Sound) (shadows : List String)
    {items : List (String × Float)} (hItems : items.Perm scope.items) :
    t.restoreAll shadows items = (.ok (), (t.merge scope shadows).2) := by
  apply Prod.ext
  · exact restoreAll_isOk hSound shadows items
  · have hOutline := (merge_frame t scope shadows).sameOutline.symm.trans
      (restoreAll_frame t shadows items).sameOutline
    refine hOutline.eq_of_vars fun name => ?_
    rw [restoreAll_vars_of_perm hSound shadows hItems, merge_vars hSound]

theorem merge_merge {t : Table} (hSound : t.Sound) (scope : Table) (shadows : List String) :
    (t.merge scope shadows).2.merge scope shadows = (.ok (), (t.merge scope shadows).2) := by
  have hMerged := (merge_frame t scope shadows).sound hSound
  apply Prod.ext
  · exact merge_isOk hMerged scope shadows
  · refine (merge_frame _ scope shadows).sameOutline.eq_of_vars fun name => ?_
    rw [merge_vars hMerged, merge_vars hSound, Option.map_map]
    congr 1
    funext v
    exact v.restored_restored (scope.get? name)

theorem merge_self {t : Table} (hSound : t.Sound) (shadows : List String) :
    (t.merge t shadows).2 = t := by
  refine (merge_frame t t shadows).sameOutline.eq_of_vars fun name => ?_
  rw [merge_vars hSound, get?]
  cases t.vars[name]? with
  | none => rfl
  | some v => rw [Option.map_some, Option.map_some, v.restored_self]

end Table

/-- Copying a scope back to a table never fails. It leaves the names, constants,
subroutines and the call depth of the table alone, and gives each name that both
have the value of the scope, if the scope did not declare the name for itself, the
name is not constant and the two values are not equal. All other values stay. The
names may come in any order, and copying the same scope back again changes
nothing. The scope itself stays as it is, even if it is that very table. -/
theorem merge_pointwise {t scope : Table} (ht : t.Reachable) (hScope : scope.Reachable)
    (shadows : List String) :
    let merged := (t.merge scope shadows).2
    (t.merge scope shadows).1 = .ok () ∧
    (∀ name, merged.contains name = t.contains name) ∧
    (∀ name, merged.isConstant name = t.isConstant name) ∧
    merged.functions = t.functions ∧ merged.procedures = t.procedures ∧
    merged.callDepth = t.callDepth ∧
    (∀ name old value, t.get? name = some old → scope.get? name = some value →
      merged.get? name = some
        (if name ∉ shadows ∧ t.isConstant name = false ∧ (old == value) = false then value
          else old)) ∧
    (∀ name, scope.get? name = none → merged.get? name = t.get? name) ∧
    (∀ items, items.Perm scope.items → t.restoreAll shadows items = (.ok (), merged)) ∧
    merged.merge scope shadows = (.ok (), merged) ∧ (scope.merge scope shadows).2 = scope := by
  intro merged
  have hSound := ht.sound
  have hFrame : Table.Frame shadows t merged := Table.merge_frame t scope shadows
  refine ⟨Table.merge_isOk hSound scope shadows, hFrame.names, hFrame.constants, hFrame.functions,
    hFrame.procedures, hFrame.callDepth, ?_, ?_, fun items hItems => ?_, ?_, ?_⟩
  · intro name old value hOld hValue
    obtain ⟨v, hv, rfl⟩ := Option.map_eq_some_iff.mp hOld
    obtain ⟨w, hw, rfl⟩ := Option.map_eq_some_iff.mp hValue
    have hConstant : t.isConstant name = v.constant := by rw [Table.isConstant, hv]; rfl
    rw [Table.get?, Table.merge_vars hSound, hv, hValue, Option.map_some, Option.map_some,
      Variable.restored_value (hScope.wellFormed.singles name w hw), hConstant]
  · intro name hAbsent
    rw [Table.get?, Table.merge_vars hSound, hAbsent, Table.get?]
    simp [Variable.restored]
  · exact Table.restoreAll_of_perm hSound shadows hItems
  · exact Table.merge_merge hSound scope shadows
  · exact Table.merge_self hScope.sound shadows

/-- A zero, a number that changes, one that is shadowed, and a constant. -/
def outerNames : String := "let x=0 let y=1 let z=2 const c=3"

/-- The zero of the other sign, what is not a number, and a name of its own. -/
def innerNames : String := "let x=-0 let y=rand(INFINITY) let z=4 let c=5 let w=6"

theorem merge_pointwise_mixed :
    let policy := Policy.usual none fun _ => 0
    let t := (execute policy outerNames ⟨Table.empty, {}⟩).2.table
    let scope := (execute policy innerNames ⟨Table.empty, {}⟩).2.table
    let merged := (t.merge scope ["z"]).2
    t.Reachable ∧ scope.Reachable ∧ (t.merge scope ["z"]).1 = .ok () ∧
    merged.get? "x" = some 0 ∧ merged.get? "y" = some Float.nan ∧ merged.get? "z" = some 2 ∧
    merged.get? "c" = some 3 ∧ merged.contains "w" = false ∧
    t.restoreAll ["z"] scope.items.reverse = (.ok (), merged) ∧
    merged.merge scope ["z"] = (.ok (), merged) := by
  intro policy t scope merged
  have ht : t.Reachable := execute_reachable policy outerNames .empty
  have hScope : scope.Reachable := execute_reachable policy innerNames .empty
  have hOuter : t.get? "x" = some 0 ∧ t.get? "y" = some 1 ∧ t.get? "z" = some 2 ∧
      t.get? "c" = some 3 ∧ t.isConstant "y" = false ∧ t.isConstant "c" = true ∧
      t.contains "w" = false := by decide +kernel
  have hInner : scope.get? "x" = some (-0) ∧ scope.get? "y" = some Float.nan ∧
      scope.get? "z" = some 4 ∧ scope.get? "c" = some 5 := by decide +kernel
  obtain ⟨hx, hy, hz, hc, hVariable, hConstant, hAbsent⟩ := hOuter
  obtain ⟨hx', hy', hz', hc'⟩ := hInner
  obtain ⟨hOk, hNames, -, -, -, -, hValues, -, hOrder, hAgain, -⟩ := merge_pointwise ht hScope ["z"]
  refine ⟨ht, hScope, hOk, ?_, ?_, ?_, ?_, (hNames "w").trans hAbsent,
    hOrder _ (List.reverse_perm _), hAgain⟩
  · have hEqual : ((0 : Float) == -0) = true := by decide +kernel
    exact (hValues "x" 0 (-0) hx hx').trans (congrArg some (if_neg (by simp [hEqual])))
  · have hChanged : ((1 : Float) == Float.nan) = false := by decide +kernel
    have hVisible : "y" ∉ ["z"] := by decide
    exact (hValues "y" 1 Float.nan hy hy').trans
      (congrArg some (if_pos ⟨hVisible, hVariable, hChanged⟩))
  · exact (hValues "z" 2 4 hz hz').trans (congrArg some (if_neg (by simp)))
  · exact (hValues "c" 3 5 hc hc').trans (congrArg some (if_neg (by simp [hConstant])))

end Reckoner
