import Reckoner.Table

/-! What storing a value and copying a scope back can do to a table. Copying
back goes through the same checks as an assignment, one name at a time. On a
table whose names are its own none of these checks can fail, so no scope is
ever copied back by half. -/
namespace Reckoner.Table

/-- No name of the table is that of a constant which every program knows. -/
def Sound (t : Table) : Prop := ∀ name, t.contains name = true → Constant.contains name = false

/-- A change that leaves alone which names there are and which of them are
constant, the subroutines and the count of calls. Constants and the names in
`shadows` also keep their values, bit for bit. -/
structure Frame (shadows : List String) (t t' : Table) : Prop where
  names : ∀ name, t'.contains name = t.contains name
  constants : ∀ name, t'.isConstant name = t.isConstant name
  functions : t'.functions = t.functions
  procedures : t'.procedures = t.procedures
  callDepth : t'.callDepth = t.callDepth
  constantValues : ∀ name, t.isConstant name = true → t'.get? name = t.get? name
  shadowedValues : ∀ name ∈ shadows, t'.get? name = t.get? name

theorem contains_eq_isSome (t : Table) (name : String) :
    t.contains name = t.vars[name]?.isSome :=
  Std.ExtTreeMap.contains_eq_isSome_getElem?

/-- The table with a single stored under a name, which stays constant if it was. -/
def store (t : Table) (name : String) (value : Float) : Table :=
  { t with vars := t.vars.insert name ⟨Number.toSingle value, t.isConstant name⟩ }

theorem store_vars (t : Table) (name other : String) (value : Float) :
    (t.store name value).vars[other]? =
      if name = other then some ⟨Number.toSingle value, t.isConstant name⟩ else t.vars[other]? := by
  simp only [store, Std.ExtTreeMap.getElem?_insert, Std.LawfulEqOrd.compare_eq_iff_eq]

theorem store_contains (t : Table) (name other : String) (value : Float) :
    (t.store name value).contains other = (decide (name = other) || t.contains other) := by
  rw [contains_eq_isSome, contains_eq_isSome, store_vars]
  split <;> simp_all

/-- Whether a name is constant is not changed by what is stored under it. -/
theorem store_isConstant (t : Table) (name other : String) (value : Float) :
    (t.store name value).isConstant other = t.isConstant other := by
  rw [isConstant, store_vars]
  split
  · next h => subst h; rfl
  · rfl

/-- Other names keep their values when one is stored. -/
theorem store_get?_of_ne {t : Table} {name other : String} (h : name ≠ other) (value : Float) :
    (t.store name value).get? other = t.get? other := by
  rw [get?, store_vars, if_neg h, get?]

/-- An assignment that succeeds stores the value and does nothing else. It has
checked that the name is not one that every program knows, and that a constant
would keep a number equal to its own. -/
theorem assign_ok {t t' : Table} {name : String} {value : Float}
    (h : t.assign name value = .ok t') :
    Constant.contains name = false ∧
    (∀ v, t.vars[name]? = some v → v.constant = true →
      (v.value == Number.toSingle value) = true) ∧
    t' = t.store name value := by
  simp only [assign] at h
  split at h
  · cases h
  · next hGlobal =>
      refine ⟨by simpa using hGlobal, ?_⟩
      split at h
      · next old hOld =>
          split at h
          · cases h
          · next hFree =>
              cases h
              refine ⟨?_, by simp [store, isConstant, hOld]⟩
              rintro v hv hConstant
              cases hOld.symm.trans hv
              simpa [hConstant, bne] using hFree
      · next hNone =>
          cases h
          exact ⟨by simp [hNone], by simp [store, isConstant, hNone]⟩

/-- Only a constant, or a name that every program knows, refuses a value. -/
theorem assign_eq_store {t : Table} {name : String} (hGlobal : Constant.contains name = false)
    (hFree : t.isConstant name = false) (value : Float) :
    t.assign name value = .ok (t.store name value) := by
  cases hOld : t.vars[name]? with
  | none => simp [assign, hGlobal, hOld, store, isConstant]
  | some old =>
      have hConstant : old.constant = false := by simpa [isConstant, hOld] using hFree
      simp [assign, hGlobal, hOld, store, isConstant, hConstant]

namespace Frame

variable {shadows : List String} {t t' t'' : Table}

theorem refl (shadows : List String) (t : Table) : Frame shadows t t :=
  ⟨fun _ => rfl, fun _ => rfl, rfl, rfl, rfl, fun _ _ => rfl, fun _ _ => rfl⟩

/-- Frames compose, which is what copying back name by name needs. -/
theorem trans (first : Frame shadows t t') (second : Frame shadows t' t'') :
    Frame shadows t t'' where
  names name := (second.names name).trans (first.names name)
  constants name := (second.constants name).trans (first.constants name)
  functions := second.functions.trans first.functions
  procedures := second.procedures.trans first.procedures
  callDepth := second.callDepth.trans first.callDepth
  constantValues name h :=
    (second.constantValues name ((first.constants name).trans h)).trans
      (first.constantValues name h)
  shadowedValues name h :=
    (second.shadowedValues name h).trans (first.shadowedValues name h)

/-- Storing under a name that is known, free and not shadowed stays within the
frame. -/
theorem store {name : String} (hKnown : t.contains name = true)
    (hFree : t.isConstant name = false) (hShadow : name ∉ shadows) (value : Float) :
    Frame shadows t (t.store name value) where
  names other := by
    rw [store_contains]
    by_cases h : name = other
    · simp [← h, hKnown]
    · simp [h]
  constants other := store_isConstant t name other value
  functions := rfl
  procedures := rfl
  callDepth := rfl
  constantValues other h := by
    refine store_get?_of_ne (fun he => ?_) value
    rw [he, h] at hFree
    cases hFree
  shadowedValues other h := by
    refine store_get?_of_ne (fun he => ?_) value
    rw [he] at hShadow
    exact hShadow h

end Frame

/-- Copying one value back does nothing, or stores the value under a name that
the table has, that is not constant and that the scope did not declare. -/
theorem restore_ok {t t' : Table} {shadows : List String} {name : String} {value : Float}
    (h : t.restore shadows name value = .ok t') :
    t' = t ∨ (t.assign name value = .ok t' ∧ t.contains name = true ∧
      t.isConstant name = false ∧ name ∉ shadows) := by
  unfold restore at h
  split at h
  · cases h
    exact .inl rfl
  · next old hOld =>
      split at h
      · cases h
        exact .inl rfl
      · next hMoves =>
          obtain ⟨hShadow, hMoves⟩ := not_or.mp hMoves
          obtain ⟨_, hFree⟩ := not_or.mp hMoves
          refine .inr ⟨h, ?_, ?_, hShadow⟩
          · simp [contains_eq_isSome, hOld]
          · simpa [isConstant, hOld] using hFree

/-- One value that is copied back stays within the frame, whatever was decided. -/
theorem restore_frame {t t' : Table} {shadows : List String} {name : String} {value : Float}
    (h : t.restore shadows name value = .ok t') : Frame shadows t t' := by
  rcases restore_ok h with rfl | ⟨hAssign, hKnown, hFree, hShadow⟩
  · exact Frame.refl shadows t'
  · obtain ⟨_, _, rfl⟩ := assign_ok hAssign
    exact Frame.store hKnown hFree hShadow value

/-- This holds whether or not all values could be copied back. -/
theorem restoreAll_frame (t : Table) (shadows : List String) (items : List (String × Float)) :
    Frame shadows t (t.restoreAll shadows items).2 := by
  induction items generalizing t with
  | nil => exact Frame.refl shadows t
  | cons item rest ih =>
      rw [restoreAll]
      split
      · next t' h => exact (restore_frame h).trans (ih t')
      · exact Frame.refl shadows t

/-- A whole scope that is copied back stays within the frame. -/
theorem merge_frame (t scope : Table) (shadows : List String) :
    Frame shadows t (t.merge scope shadows).2 :=
  restoreAll_frame t shadows scope.items

theorem Frame.sound {shadows : List String} {t t' : Table} (h : Frame shadows t t')
    (hSound : t.Sound) : t'.Sound :=
  fun name hName => hSound name ((h.names name).symm.trans hName)

/-- On a sound table a value can be copied back: the checks of an assignment
were made before. -/
theorem restore_isOk {t : Table} (hSound : t.Sound) (shadows : List String) (name : String)
    (value : Float) : ∃ t', t.restore shadows name value = .ok t' := by
  unfold restore
  split
  · exact ⟨t, rfl⟩
  · next old hOld =>
      split
      · exact ⟨t, rfl⟩
      · next hMoves =>
          obtain ⟨_, hMoves⟩ := not_or.mp hMoves
          obtain ⟨_, hVariable⟩ := not_or.mp hMoves
          have hGlobal : Constant.contains name = false :=
            hSound name (by simp [contains_eq_isSome, hOld])
          have hFree : t.isConstant name = false := by
            simpa [isConstant, hOld] using hVariable
          exact ⟨_, assign_eq_store hGlobal hFree value⟩

/-- On a sound table all values can be copied back, whatever the scope holds. -/
theorem restoreAll_isOk {t : Table} (hSound : t.Sound) (shadows : List String)
    (items : List (String × Float)) : (t.restoreAll shadows items).1 = .ok () := by
  induction items generalizing t with
  | nil => rfl
  | cons item rest ih =>
      obtain ⟨t', h⟩ := restore_isOk hSound shadows item.1 item.2
      rw [restoreAll]
      simp only [h]
      exact ih ((restore_frame h).sound hSound)

theorem merge_isOk {t : Table} (hSound : t.Sound) (scope : Table) (shadows : List String) :
    (t.merge scope shadows).1 = .ok () :=
  restoreAll_isOk hSound shadows scope.items

end Reckoner.Table
