import Reckoner.Proofs.Reachable
import Mathlib

/-! Constants never change. Storing into a constant is checked, copying back
passes it over, and declaring it again is refused; so a constant keeps its
number through every run. Only the sign of a zero can change, because the
numbers are compared and not their bits. -/
namespace Reckoner

open Attempt

namespace Number

/-- Equal as numbers, or neither is a number. -/
def Same (a b : Float) : Prop := (a == b) = true ∨ (a.isNaN = true ∧ b.isNaN = true)

/-- All values that are not numbers are one and the same, since their bits do
not count. -/
theorem isNaN_iff {a : Float} : a.isNaN = true ↔ a = Float.nan := by
  rw [Float.isNaN_eq_decide_eq_nan, decide_eq_true_eq]

namespace Same

theorem refl (a : Float) : Same a a := by
  by_cases h : a = Float.nan
  · exact .inr ⟨isNaN_iff.mpr h, isNaN_iff.mpr h⟩
  · exact .inl (Float.beq_self_iff.mpr h)

/-- Being the same number is transitive, although equality of doubles is so only
on numbers. -/
theorem trans {a b c : Float} (first : Same a b) (second : Same b c) : Same a c := by
  rcases first with hab | ⟨ha, hb⟩
  · rcases second with hbc | ⟨hb, _⟩
    · exact .inl (BEq.trans hab hbc)
    · rw [isNaN_iff.mp hb, Float.beq_nan_eq_false] at hab
      cases hab
  · rcases second with hbc | ⟨_, hc⟩
    · rw [isNaN_iff.mp hb, Float.nan_beq_eq_false] at hbc
      cases hbc
    · exact .inr ⟨ha, hc⟩

end Same

end Number

namespace Table

/-- Every constant of the first table is one of the second, with the same number. -/
def KeepsConstants (t t' : Table) : Prop :=
  ∀ name, t.isConstant name = true →
    t'.isConstant name = true ∧
      ∃ a b, t.get? name = some a ∧ t'.get? name = some b ∧ Number.Same a b

/-- A name is constant if it has a variable that is marked. -/
theorem isConstant_iff {t : Table} {name : String} :
    t.isConstant name = true ↔ ∃ v, t.vars[name]? = some v ∧ v.constant = true := by
  unfold isConstant
  cases t.vars[name]? <;> simp

namespace KeepsConstants

/-- It is enough to look at the variables. -/
theorem of_vars {t t' : Table}
    (h : ∀ (name : String) (v : Variable), t.vars[name]? = some v → v.constant = true →
      ∃ v' : Variable, t'.vars[name]? = some v' ∧ v'.constant = true ∧
        Number.Same v.value v'.value) :
    KeepsConstants t t' := by
  intro name hName
  obtain ⟨v, hv, hConstant⟩ := isConstant_iff.mp hName
  obtain ⟨v', hv', hConstant', hSame⟩ := h name v hv hConstant
  exact ⟨isConstant_iff.mpr ⟨v', hv', hConstant'⟩, v.value, v'.value,
    by simp [get?, hv], by simp [get?, hv'], hSame⟩

/-- What keeps the constants at every step keeps them all along. -/
theorem trans {t t' t'' : Table} (first : KeepsConstants t t') (second : KeepsConstants t' t'') :
    KeepsConstants t t'' := by
  intro name hName
  obtain ⟨hMiddle, a, b, ha, hb, hab⟩ := first name hName
  obtain ⟨hLast, b', c, hb', hc, hbc⟩ := second name hMiddle
  cases hb.symm.trans hb'
  exact ⟨hLast, a, c, ha, hc, hab.trans hbc⟩

theorem of_vars_eq {t t' : Table} (h : t'.vars = t.vars) : KeepsConstants t t' :=
  of_vars fun _ v hv hConstant => ⟨v, h ▸ hv, hConstant, Number.Same.refl v.value⟩

end KeepsConstants

/-- Storing under a constant succeeds only with a number equal to its own. -/
theorem assign_keepsConstants {t t' : Table} {name : String} {value : Float}
    (h : t.assign name value = .ok t') : KeepsConstants t t' := by
  obtain ⟨_, hChecked, rfl⟩ := assign_ok h
  apply KeepsConstants.of_vars
  intro other v hv hConstant
  by_cases hOther : name = other
  · subst hOther
    have hOld : t.isConstant name = true := isConstant_iff.mpr ⟨v, hv, hConstant⟩
    refine ⟨⟨Number.toSingle value, true⟩, by simp [store_vars, hOld], rfl, ?_⟩
    exact .inl (hChecked v hv hConstant)
  · exact ⟨v, by simp [store_vars, hOther, hv], hConstant, Number.Same.refl v.value⟩

/-- A name that is constant, or a variable, cannot be made a constant again. -/
theorem declareConstant_keepsConstants {t t' : Table} {name : String} {value : Float}
    (h : t.declareConstant name value = .ok t') : KeepsConstants t t' := by
  obtain ⟨_, hNew, rfl⟩ := declareConstant_ok h
  apply KeepsConstants.of_vars
  intro other v hv hConstant
  have hOther : name ≠ other := by
    rintro rfl
    simp [contains_eq_isSome, hv] at hNew
  refine ⟨v, ?_, hConstant, Number.Same.refl v.value⟩
  simp [Std.ExtTreeMap.getElem?_insert, hOther, hv]

/-- Copying back leaves constants alone, bit for bit. -/
theorem Frame.keepsConstants {shadows : List String} {t t' : Table} (h : Frame shadows t t') :
    KeepsConstants t t' := by
  intro name hName
  obtain ⟨v, hv, _⟩ := isConstant_iff.mp hName
  have hValue : t.get? name = some v.value := by simp [get?, hv]
  exact ⟨(h.constants name).trans hName, v.value, v.value, hValue,
    (h.constantValues name hName).trans hValue, Number.Same.refl v.value⟩

/-- One case for each change that a statement can make. -/
theorem Change.keepsConstants {t t' : Table} (h : t.Change t') : KeepsConstants t t' := by
  cases h with
  | none => exact KeepsConstants.of_vars_eq rfl
  | assign stored => exact assign_keepsConstants stored
  | declareConstant stored => exact declareConstant_keepsConstants stored
  | declare stored => exact KeepsConstants.of_vars_eq (declare_vars stored)
  | merge scope shadows => exact (merge_frame t scope shadows).keepsConstants

/-- The constants of a table are kept by every run that starts on it. -/
theorem stable_keepsConstants (t : Table) : Stable fun t' => t'.Sound ∧ KeepsConstants t t' where
  sound _ h := h.1
  change _ _ h hChange := ⟨hChange.sound h.1, h.2.trans hChange.keepsConstants⟩

end Table

/-- However a run ends, whatever was constant before it is constant after it
and holds the same number. -/
theorem constants_never_change (policy : Policy) (p : Program) (m : Machine)
    (hReachable : m.table.Reachable) (name : String) (hName : m.table.isConstant name = true) :
    (p.run policy m).2.table.isConstant name = true ∧
      ∃ a b, m.table.get? name = some a ∧ (p.run policy m).2.table.get? name = some b ∧
        ((a == b) = true ∨ (a.isNaN = true ∧ b.isNaN = true)) := by
  have hStart : m.table.Sound ∧ m.table.KeepsConstants m.table :=
    ⟨hReachable.sound, Table.KeepsConstants.of_vars_eq rfl⟩
  exact (Program.run_keeps (Table.stable_keepsConstants m.table) policy p hStart).2 name hName

/-- Stores the negative zero and then the number one. -/
def overwrite (name : String) : Program :=
  [.expression (.binary .assign (.name name) (.unary .sub (.number 0 "0"))),
   .expression (.binary .assign (.name name) (.number 1 "1"))]

/-- A constant zero takes the negative zero, which is equal to it, but not one. -/
theorem constants_never_change_zero :
    let policy := Policy.usual none fun _ => 0.5
    let m := ((Statement.constVar "c" (.number 0 "0")).run policy ⟨Table.empty, {}⟩).2
    m.table.isConstant "c" = true ∧ m.table.get? "c" = some 0 ∧
    ((overwrite "c").run policy m).1 = .error (.symbol (.immutableConstant "c")) ∧
    ((overwrite "c").run policy m).2.table.get? "c" = some (-0) ∧
    ((overwrite "c").run policy m).2.table.isConstant "c" = true ∧
      ∃ a b, m.table.get? "c" = some a ∧
        ((overwrite "c").run policy m).2.table.get? "c" = some b ∧
        ((a == b) = true ∨ (a.isNaN = true ∧ b.isNaN = true)) := by
  intro policy m
  have hConstant : m.table.isConstant "c" = true := by decide +kernel
  refine ⟨hConstant, by decide +kernel, by decide +kernel, by decide +kernel, ?_⟩
  exact constants_never_change policy (overwrite "c") m (.run policy _ .empty) "c" hConstant

end Reckoner
