import Reckoner.Proofs.Representation
import Std.Data.ExtTreeSet

/-! Variables in two containers: a map of values, and beside it the set of the names that
are constant. Nothing in the two containers themselves gives every constant a value,
and storing a number has to look the value of a constant up. The operations keep the
containers in step: what they make of them is what the operations on tables make of a
table, in which a variable is one entry. So no constant lacks a value, and no lookup
fails. -/
namespace Reckoner

/-- The variables of a table, taken apart. -/
structure Containers where
  values : Std.ExtTreeMap String Float
  constants : Std.ExtTreeSet String

namespace Containers

def empty : Containers := ⟨∅, ∅⟩

/-- Stores a number under a name, as a single. For a constant, the number is compared
with the one that is there, and if there is none the operation has no result at all. -/
def assign (c : Containers) (name : String) (value : Float) :
    Option (Except Failure Containers) :=
  let value := Number.toSingle value
  if Constant.contains name then some (.error (.symbol (.immutableConstant name)))
  else if name ∈ c.constants then
    c.values[name]?.map fun old =>
      if old != value then .error (.symbol (.immutableConstant name))
      else .ok { c with values := c.values.insert name value }
  else some (.ok { c with values := c.values.insert name value })

/-- Stores a number under a new name and makes the name constant. -/
def declareConstant (c : Containers) (name : String) (value : Float) :
    Except Failure Containers :=
  if Constant.contains name then .error (.symbol (.immutableConstant name))
  else if name ∈ c.values then .error (.symbol (.redefinition name))
  else .ok ⟨c.values.insert name (Number.toSingle value), c.constants.insert name⟩

/-- Copies one value of a scope back. -/
def restore (c : Containers) (shadows : List String) (name : String) (value : Float) :
    Option (Except Failure Containers) :=
  if name ∈ shadows then some (.ok c)
  else match c.values[name]? with
    | none => some (.ok c)
    | some old =>
      if old == value ∨ name ∈ c.constants then some (.ok c) else c.assign name value

/-- Copies values back one after another. What was copied before a failure remains. -/
def restoreAll (c : Containers) (shadows : List String) :
    List (String × Float) → Option (Except Failure Unit × Containers)
  | [] => some (.ok (), c)
  | (name, value) :: rest =>
    match c.restore shadows name value with
    | some (.ok c) => c.restoreAll shadows rest
    | some (.error e) => some (.error e, c)
    | none => none

/-- Copies the changes of a scope back, except to the names in `shadows`. -/
def merge (c scope : Containers) (shadows : List String) :
    Option (Except Failure Unit × Containers) :=
  c.restoreAll shadows scope.values.toList

/-- Makes a constant an ordinary variable again. -/
def unfreeze (c : Containers) (name : String) : Containers :=
  { c with constants := c.constants.erase name }

/-- The containers that come about from empty ones, by the operations on them. -/
inductive Reachable : Containers → Prop where
  | empty : Reachable empty
  | assign {c c' : Containers} {name : String} {value : Float} (prior : Reachable c)
      (stored : c.assign name value = some (.ok c')) : Reachable c'
  | declareConstant {c c' : Containers} {name : String} {value : Float} (prior : Reachable c)
      (stored : c.declareConstant name value = .ok c') : Reachable c'
  | merge {c c' : Containers} {scope : Containers} {shadows : List String}
      {result : Except Failure Unit} (prior : Reachable c)
      (copied : c.merge scope shadows = some (result, c')) : Reachable c'
  | unfreeze {c : Containers} (name : String) (prior : Reachable c) : Reachable (c.unfreeze name)

end Containers

namespace Table

/-- The variables of a table in two containers. -/
def containers (t : Table) : Containers :=
  ⟨t.vars.map fun _ v => v.value, .ofList t.constants⟩

theorem containers_values (t : Table) (name : String) :
    t.containers.values[name]? = t.get? name := Std.ExtTreeMap.getElem?_map

theorem mem_containers_values {t : Table} {name : String} :
    name ∈ t.containers.values ↔ t.contains name = true := by
  rw [Std.ExtTreeMap.mem_iff_isSome_getElem?, containers_values, contains_eq_isSome, get?,
    Option.isSome_map]

/-- The constants of a table are those of its variables that are marked. -/
theorem mem_containers_constants {t : Table} {name : String} :
    name ∈ t.containers.constants ↔ t.isConstant name = true := by
  rw [containers, Std.ExtTreeSet.mem_ofList, List.contains_iff_mem, mem_constants, isConstant]
  cases t.vars[name]? <;> simp

/-- Two containers are told apart by what is in them. -/
theorem containers_eq {t : Table} {c : Containers}
    (hValues : ∀ name, t.get? name = c.values[name]?)
    (hConstants : ∀ name, t.isConstant name = true ↔ name ∈ c.constants) : t.containers = c := by
  have hSame : t.containers.values = c.values :=
    Std.ExtTreeMap.ext_getElem? fun name => (t.containers_values name).trans (hValues name)
  have hMarked : t.containers.constants = c.constants :=
    Std.ExtTreeSet.ext_mem fun name => mem_containers_constants.trans (hConstants name)
  calc t.containers = ⟨t.containers.values, t.containers.constants⟩ := rfl
    _ = c := by rw [hSame, hMarked]

/-- Subroutines and calls have no part in the containers. -/
theorem containers_of_vars_eq {t t' : Table} (h : t'.vars = t.vars) :
    t'.containers = t.containers := by
  rw [containers, containers, constants, constants, h]

theorem store_get? (t : Table) (name other : String) (value : Float) :
    (t.store name value).get? other =
      if name = other then some (Number.toSingle value) else t.get? other := by
  rw [get?, store_vars]
  split <;> rfl

/-- Storing a number changes the values and leaves the constants alone. -/
theorem containers_store (t : Table) (name : String) (value : Float) :
    (t.store name value).containers =
      { t.containers with values := t.containers.values.insert name (Number.toSingle value) } := by
  refine containers_eq (fun other => ?_) fun other => ?_
  · rw [store_get?, Std.ExtTreeMap.getElem?_insert, containers_values]
    simp
  · rw [store_isConstant, mem_containers_constants]

/-- A table stores a number as `store` does, or refuses to change a constant. -/
theorem assign_eq (t : Table) {name : String} (hName : Constant.contains name = false)
    (value : Float) :
    t.assign name value =
      if (t.isConstant name && (t.get? name).any (· != Number.toSingle value)) = true
      then .error (.symbol (.immutableConstant name)) else .ok (t.store name value) := by
  cases hEntry : t.vars[name]? with
  | none => simp [assign, hName, hEntry, store, isConstant, get?]
  | some old => simp [assign, hName, hEntry, store, isConstant, get?]

/-- No constant of a table lacks a value. -/
theorem exists_get?_of_isConstant {t : Table} {name : String} (h : t.isConstant name = true) :
    ∃ old, t.get? name = some old := by
  rw [isConstant] at h
  rw [get?]
  cases hEntry : t.vars[name]? with
  | none =>
      rw [hEntry] at h
      cases h
  | some old => exact ⟨old.value, rfl⟩

/-- An assignment in the containers comes to what the assignment to the table
comes to. It has a result, because a constant of a table has a value. -/
theorem containers_assign (t : Table) (name : String) (value : Float) :
    t.containers.assign name value = some ((t.assign name value).map containers) := by
  unfold Containers.assign
  cases hName : Constant.contains name with
  | true => simp [assign, hName, Except.map]
  | false =>
      rw [assign_eq t hName, containers_values]
      by_cases hConstant : t.isConstant name = true
      · obtain ⟨old, hOld⟩ := exists_get?_of_isConstant hConstant
        have hMarked : name ∈ t.containers.constants := mem_containers_constants.mpr hConstant
        simp only [Bool.false_eq_true, if_false, hMarked, if_true, hOld, hConstant]
        by_cases hKept : (old != Number.toSingle value) = true
        · simp [hKept, Except.map]
        · simp [hKept, Except.map, containers_store]
      · have hFree : name ∉ t.containers.constants := mt mem_containers_constants.mp hConstant
        simp [hFree, hConstant, Except.map, containers_store]

/-- A new constant enters both containers at once. -/
theorem containers_declareConstant (t : Table) (name : String) (value : Float) :
    t.containers.declareConstant name value = (t.declareConstant name value).map containers := by
  unfold Containers.declareConstant declareConstant
  cases Constant.contains name with
  | true => rfl
  | false =>
      by_cases hKnown : t.contains name = true
      · simp [mem_containers_values, hKnown, Except.map]
      · have hNew : name ∉ t.containers.values := mt mem_containers_values.mp hKnown
        simp only [Bool.false_eq_true, if_false, hNew, hKnown, Except.map, Except.ok.injEq]
        refine (containers_eq (fun other => ?_) fun other => ?_).symm
        · rw [get?, Std.ExtTreeMap.getElem?_insert, Std.ExtTreeMap.getElem?_insert,
            containers_values]
          split <;> rfl
        · rw [isConstant, Std.ExtTreeMap.getElem?_insert, Std.ExtTreeSet.mem_insert,
            mem_containers_constants]
          by_cases hOther : compare name other = .eq
          · simp [hOther]
          · simp [hOther, isConstant]

/-- Copying one value back asks in another order, but comes to the same. -/
theorem containers_restore (t : Table) (shadows : List String) (name : String) (value : Float) :
    t.containers.restore shadows name value =
      some ((t.restore shadows name value).map containers) := by
  unfold Containers.restore restore
  rw [containers_values, get?]
  cases hEntry : t.vars[name]? with
  | none => simp [Except.map]
  | some old =>
      have hMarked : name ∈ t.containers.constants ↔ old.constant = true := by
        rw [mem_containers_constants, isConstant, hEntry]
        rfl
      by_cases hShadowed : name ∈ shadows
      · simp [hShadowed, Except.map]
      · by_cases hKept : (old.value == value) = true ∨ old.constant = true
        · simp [hShadowed, hMarked, hKept, Except.map]
        · simp [hShadowed, hMarked, hKept, containers_assign]

/-- Step and run: what one value does, all of them do in turn, up to a failure. -/
theorem containers_restoreAll (t : Table) (shadows : List String) (items : List (String × Float)) :
    t.containers.restoreAll shadows items =
      some ((t.restoreAll shadows items).1, (t.restoreAll shadows items).2.containers) := by
  induction items generalizing t with
  | nil => rfl
  | cons item rest ih =>
      rw [Containers.restoreAll, restoreAll, containers_restore]
      cases t.restore shadows item.1 item.2 with
      | ok t' => exact ih t'
      | error e => rfl

/-- The values of a scope are copied in the order of their names, which is that
of the table. -/
theorem containers_merge (t scope : Table) (shadows : List String) :
    t.containers.merge scope.containers shadows =
      some ((t.merge scope shadows).1, (t.merge scope shadows).2.containers) := by
  have hItems : scope.containers.values.toList = scope.items := Std.ExtTreeMap.toList_map
  rw [Containers.merge, hItems, containers_restoreAll]
  rfl

/-- A constant that becomes a variable keeps its value. -/
theorem containers_unfreeze (t : Table) (name : String) :
    (t.unfreeze name).containers = t.containers.unfreeze name := by
  unfold unfreeze Containers.unfreeze
  cases hEntry : t.vars[name]? with
  | none =>
      refine containers_eq (fun other => (t.containers_values other).symm) fun other => ?_
      rw [Std.ExtTreeSet.mem_erase, mem_containers_constants]
      refine ⟨fun hConstant => ⟨fun hSame => ?_, hConstant⟩, fun h => h.2⟩
      obtain rfl := Std.LawfulEqOrd.eq_of_compare hSame
      simp [isConstant, hEntry] at hConstant
  | some v =>
      refine containers_eq (fun other => ?_) fun other => ?_
      · rw [containers_values, get?, get?, Std.ExtTreeMap.getElem?_insert]
        split
        · next hSame =>
            obtain rfl := Std.LawfulEqOrd.eq_of_compare hSame
            rw [hEntry]
            rfl
        · rfl
      · rw [Std.ExtTreeSet.mem_erase, mem_containers_constants, isConstant,
          Std.ExtTreeMap.getElem?_insert]
        by_cases hSame : compare name other = .eq
        · simp [hSame]
        · simp [hSame, isConstant]

/-- Containers that an operation on a table came to are those of the new table. -/
theorem exists_of_map_containers {r : Except Failure Table} {c : Containers}
    (h : r.map containers = .ok c) : ∃ t : Table, t.containers = c := by
  cases r with
  | error e => cases h
  | ok t => exact ⟨t, Except.ok.inj h⟩

theorem containers_assign_ok {t t' : Table} {name : String} {value : Float}
    (h : t.assign name value = .ok t') :
    t.containers.assign name value = some (.ok t'.containers) := by
  rw [containers_assign, h]
  rfl

theorem containers_declareConstant_ok {t t' : Table} {name : String} {value : Float}
    (h : t.declareConstant name value = .ok t') :
    t.containers.declareConstant name value = .ok t'.containers := by
  rw [containers_declareConstant, h]
  rfl

/-- Whatever a run does to its table, the operations can do to the containers. -/
theorem stable_containers : Stable fun t => t.Sound ∧ t.containers.Reachable where
  sound _ h := h.1
  change t t' h hChange := by
    refine ⟨hChange.sound h.1, ?_⟩
    cases hChange with
    | none => exact h.2
    | assign stored => exact h.2.assign (containers_assign_ok stored)
    | declareConstant stored => exact h.2.declareConstant (containers_declareConstant_ok stored)
    | declare stored => exact containers_of_vars_eq (declare_vars stored) ▸ h.2
    | merge scope shadows => exact h.2.merge (containers_merge t scope shadows)

/-- A table without names has empty containers, wherever its calls stand. -/
theorem containers_empty (depth : Nat) :
    ({ empty with callDepth := depth } : Table).containers = .empty := by
  refine containers_eq (fun name => ?_) fun name => ?_
  · simp [get?, empty, Containers.empty]
  · simp [isConstant, empty, Containers.empty]

/-- The containers of a table that comes about come about by the operations on them. -/
theorem Reachable.containers {t : Table} (h : t.Reachable) : t.containers.Reachable := by
  induction h with
  | empty => exact containers_empty 0 ▸ .empty
  | assign _ stored ih => exact ih.assign (containers_assign_ok stored)
  | declareConstant _ stored ih => exact ih.declareConstant (containers_declareConstant_ok stored)
  | declare _ stored ih => exact containers_of_vars_eq (declare_vars stored) ▸ ih
  | @enterCall t _ ih => exact containers_of_vars_eq (t := t) rfl ▸ ih
  | merge shadows _ _ ih _ => exact ih.merge (containers_merge _ _ shadows)
  | @unfreeze t name _ ih => exact containers_unfreeze t name ▸ ih.unfreeze name
  | @clear t _ _ => exact containers_empty t.callDepth ▸ .empty
  | run policy s prior ih => exact (s.run_keeps stable_containers policy ⟨prior.sound, ih⟩).2

end Table

namespace Containers

/-- Containers that come about are those of a table. -/
theorem Reachable.exists_table {c : Containers} (h : c.Reachable) :
    ∃ t : Table, t.containers = c := by
  induction h with
  | empty => exact ⟨Table.empty, Table.containers_empty 0⟩
  | assign _ stored ih =>
      obtain ⟨t, rfl⟩ := ih
      rw [Table.containers_assign, Option.some.injEq] at stored
      exact Table.exists_of_map_containers stored
  | declareConstant _ stored ih =>
      obtain ⟨t, rfl⟩ := ih
      rw [Table.containers_declareConstant] at stored
      exact Table.exists_of_map_containers stored
  | merge _ copied ih =>
      obtain ⟨t, rfl⟩ := ih
      rw [Containers.merge, Table.containers_restoreAll, Option.some.injEq] at copied
      exact ⟨_, congrArg Prod.snd copied⟩
  | unfreeze name _ ih =>
      obtain ⟨t, rfl⟩ := ih
      exact ⟨t.unfreeze name, t.containers_unfreeze name⟩

/-- Every constant has a value. -/
theorem Reachable.constants_have_values {c : Containers} (h : c.Reachable) :
    ∀ name ∈ c.constants, name ∈ c.values := by
  obtain ⟨t, rfl⟩ := h.exists_table
  intro name hConstant
  rw [Table.mem_containers_constants] at hConstant
  obtain ⟨old, hOld⟩ := Table.exists_get?_of_isConstant hConstant
  rw [Std.ExtTreeMap.mem_iff_isSome_getElem?, Table.containers_values, hOld]
  rfl

/-- The value of a constant can be looked up whenever a number is stored. -/
theorem Reachable.assign_ne_none {c : Containers} (h : c.Reachable) (name : String)
    (value : Float) : c.assign name value ≠ none := by
  obtain ⟨t, rfl⟩ := h.exists_table
  rw [Table.containers_assign]
  exact Option.some_ne_none _

/-- Containers out of step: the lookup fails. -/
example : ((⟨∅, .ofList ["x"]⟩ : Containers).assign "x" 1).isNone = true := by decide +kernel

end Containers

end Reckoner
