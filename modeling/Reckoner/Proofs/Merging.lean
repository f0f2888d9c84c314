import Reckoner.Proofs.CopyBack

/-! Copying back, one name at a time. The scope has each of its names once, so
what becomes of a variable depends on that variable and on the value that the
scope has under the same name, and on nothing else. -/
namespace Reckoner

/-- What a variable becomes when the value that a scope has under its name, if
there is one, is copied back. -/
def Variable.restored (v : Variable) (shadowed : Prop) [Decidable shadowed] :
    Option Float → Variable
  | none => v
  | some value =>
    if shadowed ∨ v.value == value ∨ v.constant then v
    else ⟨Number.toSingle value, v.constant⟩

namespace Table

theorem mem_items {t : Table} {name : String} {value : Float} :
    (name, value) ∈ t.items ↔ t.get? name = some value := by
  simp only [items, List.mem_map, Prod.mk.injEq, Prod.exists, get?, Option.map_eq_some_iff,
    Std.ExtTreeMap.mem_toList_iff_getElem?_eq_some]
  constructor
  · rintro ⟨name, v, hv, rfl, hValue⟩
    exact ⟨v, hv, hValue⟩
  · rintro ⟨v, hv, hValue⟩
    exact ⟨name, v, hv, rfl, hValue⟩

/-- A table has each of its names once. -/
theorem items_distinct (t : Table) : t.items.Pairwise fun a b => a.1 ≠ b.1 := by
  refine List.pairwise_map.mpr (Std.ExtTreeMap.distinct_keys_toList.imp fun {a b} hNames => ?_)
  exact fun hSame => hNames (Std.LawfulEqOrd.compare_eq_iff_eq.mpr hSame)

/-- Copying a value back reaches one variable at most. -/
theorem restore_vars {t : Table} (hSound : t.Sound) (shadows : List String) (name : String)
    (value : Float) :
    ∃ t', t.restore shadows name value = .ok t' ∧ ∀ other, t'.vars[other]? =
      if name = other then t.vars[other]?.map (·.restored (name ∈ shadows) (some value))
      else t.vars[other]? := by
  unfold restore
  cases hOld : t.vars[name]? with
  | none =>
      refine ⟨t, rfl, fun other => ?_⟩
      split
      · next h => rw [← h, hOld]; rfl
      · rfl
  | some old =>
      by_cases hStays : name ∈ shadows ∨ (old.value == value) = true ∨ old.constant = true
      · refine ⟨t, if_pos hStays, fun other => ?_⟩
        split
        · next h => rw [← h, hOld, Option.map_some, Variable.restored, if_pos hStays]
        · rfl
      · obtain ⟨_, hMoves⟩ := not_or.mp hStays
        obtain ⟨_, hVariable⟩ := not_or.mp hMoves
        have hGlobal : Constant.contains name = false :=
          hSound name (by rw [contains_eq_isSome, hOld]; rfl)
        have hFree : t.isConstant name = false := by simpa [isConstant, hOld] using hVariable
        refine ⟨t.store name value, ?_, fun other => ?_⟩
        · exact (if_neg hStays).trans (assign_eq_store hGlobal hFree value)
        · rw [store_vars, hFree]
          split
          · next h =>
              rw [← h, hOld, Option.map_some, Variable.restored, if_neg hStays,
                Bool.eq_false_iff.mpr hVariable]
          · rfl

/-- The induction is on the values that are left to copy. Once a name was dealt
with, it does not come again. -/
theorem restoreAll_vars {t : Table} (hSound : t.Sound) (shadows : List String)
    {items : List (String × Float)} (hDistinct : items.Pairwise fun a b => a.1 ≠ b.1)
    (name : String) :
    (∀ value, (name, value) ∈ items → (t.restoreAll shadows items).2.vars[name]? =
      t.vars[name]?.map (·.restored (name ∈ shadows) (some value))) ∧
    ((∀ value, (name, value) ∉ items) →
      (t.restoreAll shadows items).2.vars[name]? = t.vars[name]?) := by
  induction items generalizing t with
  | nil => exact ⟨fun value hMem => absurd hMem List.not_mem_nil, fun _ => rfl⟩
  | cons item rest ih =>
      obtain ⟨first, given⟩ := item
      obtain ⟨hFirst, hRest⟩ := List.pairwise_cons.mp hDistinct
      obtain ⟨t', hRestore, hVars⟩ := restore_vars hSound shadows first given
      obtain ⟨hIn, hOut⟩ := ih ((restore_frame hRestore).sound hSound) hRest
      rw [restoreAll]
      simp only [hRestore]
      constructor
      · intro value hMem
        rcases List.mem_cons.mp hMem with hHead | hTail
        · obtain ⟨rfl, rfl⟩ := Prod.mk.inj hHead
          rw [hOut fun other hOther => hFirst _ hOther rfl, hVars, if_pos rfl]
        · have hName : first ≠ name := hFirst _ hTail
          rw [hIn value hTail, hVars, if_neg hName]
      · intro hAbsent
        have hName : first ≠ name := by
          rintro rfl
          exact hAbsent given List.mem_cons_self
        rw [hOut fun value hTail => hAbsent value (List.mem_cons_of_mem _ hTail), hVars,
          if_neg hName]

/-- Copying back is done name by name, in whatever order the names come. -/
theorem restoreAll_vars_of_perm {t scope : Table} (hSound : t.Sound) (shadows : List String)
    {items : List (String × Float)} (hItems : items.Perm scope.items) (name : String) :
    (t.restoreAll shadows items).2.vars[name]? =
      t.vars[name]?.map (·.restored (name ∈ shadows) (scope.get? name)) := by
  have hDistinct : items.Pairwise fun a b => a.1 ≠ b.1 :=
    (hItems.pairwise_iff fun hNames => hNames.symm).mpr scope.items_distinct
  obtain ⟨hIn, hOut⟩ := restoreAll_vars hSound shadows hDistinct name
  cases hValue : scope.get? name with
  | some value => exact hIn value (hItems.mem_iff.mpr (mem_items.mpr hValue))
  | none =>
      refine (hOut fun value hMem => ?_).trans ?_
      · rw [mem_items.mp (hItems.mem_iff.mp hMem)] at hValue
        cases hValue
      · simp [Variable.restored]

theorem merge_vars {t : Table} (hSound : t.Sound) (scope : Table) (shadows : List String)
    (name : String) :
    (t.merge scope shadows).2.vars[name]? =
      t.vars[name]?.map (·.restored (name ∈ shadows) (scope.get? name)) :=
  restoreAll_vars_of_perm hSound shadows (.refl scope.items) name

/-- A value that the scope has left equal stays as it is. -/
theorem merge_get?_of_beq {t scope : Table} (hSound : t.Sound) (shadows : List String)
    {name : String} {a b : Float} (ha : t.get? name = some a) (hb : scope.get? name = some b)
    (hEqual : (a == b) = true) : (t.merge scope shadows).2.get? name = some a := by
  obtain ⟨v, hv, rfl⟩ := Option.map_eq_some_iff.mp ha
  have hStays : v.restored (name ∈ shadows) (some b) = v := if_pos (.inr (.inl hEqual))
  rw [get?, merge_vars hSound, hv, hb, Option.map_some, hStays, Option.map_some]

end Table
end Reckoner
