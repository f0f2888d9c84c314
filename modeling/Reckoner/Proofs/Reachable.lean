import Reckoner.Proofs.Effect

/-! The tables that come about, and how a property is shown to hold of all of
them. A property that survives every single change survives every run. -/
namespace Reckoner

open Attempt

namespace Table

/-- The tables that come about from the empty one, by the operations on tables
and by carrying out statements, whether or not these succeed. The scope of a
block is a copy, which is the same table; the scope of a call counts one call
more. The conditions and the state of each run are free. -/
inductive Reachable : Table → Prop where
  | empty : Reachable Table.empty
  | assign {t t' : Table} {name : String} {value : Float} (prior : Reachable t)
      (stored : t.assign name value = .ok t') : Reachable t'
  | declareConstant {t t' : Table} {name : String} {value : Float} (prior : Reachable t)
      (stored : t.declareConstant name value = .ok t') : Reachable t'
  | declare {t t' : Table} {kind : Subroutine.Kind} {s : Subroutine} (prior : Reachable t)
      (stored : t.declare kind s = .ok t') : Reachable t'
  | enterCall {t : Table} (prior : Reachable t) : Reachable t.enterCall
  | merge {t scope : Table} (shadows : List String) (prior : Reachable t)
      (other : Reachable scope) : Reachable (t.merge scope shadows).2
  | unfreeze {t : Table} (name : String) (prior : Reachable t) : Reachable (t.unfreeze name)
  | clear {t : Table} (prior : Reachable t) : Reachable t.clear
  | run {m : Machine} (policy : Policy) (s : Statement) (prior : Reachable m.table) :
      Reachable (s.run policy m).2.table

/-- A property of sound tables that no single change breaks. -/
structure Stable (P : Table → Prop) : Prop where
  sound : ∀ t, P t → t.Sound
  change : ∀ t t', P t → t.Change t' → P t'

/-- A declaration that succeeds had a new name, and stores a constant under it. -/
theorem declareConstant_ok {t t' : Table} {name : String} {value : Float}
    (h : t.declareConstant name value = .ok t') :
    Constant.contains name = false ∧ t.contains name = false ∧
      t' = { t with vars := t.vars.insert name ⟨Number.toSingle value, true⟩ } := by
  unfold declareConstant at h
  split at h
  · cases h
  · next hGlobal =>
      split at h
      · cases h
      · next hNew =>
          cases h
          exact ⟨by simpa using hGlobal, by simpa using hNew, rfl⟩

/-- A declaration stores the subroutine with those of its kind and changes
nothing else. -/
theorem declare_ok {t t' : Table} {kind : Subroutine.Kind} {s : Subroutine}
    (h : t.declare kind s = .ok t') :
    t' = { t with functions := t.functions.insert s.name s } ∨
      t' = { t with procedures := t.procedures.insert s.name s } := by
  unfold declare at h
  cases kind with
  | function =>
      dsimp only at h
      split at h
      · cases h
      · cases h
        exact .inl rfl
  | procedure =>
      dsimp only at h
      split at h
      · cases h
      · cases h
        exact .inr rfl

theorem declare_vars {t t' : Table} {kind : Subroutine.Kind} {s : Subroutine}
    (h : t.declare kind s = .ok t') : t'.vars = t.vars := by
  rcases declare_ok h with rfl | rfl
  · rfl
  · rfl

/-- Tables with the same parts are the same. -/
theorem eq_of_parts {t t' : Table} (hVars : t'.vars = t.vars)
    (hFunctions : t'.functions = t.functions) (hProcedures : t'.procedures = t.procedures)
    (hDepth : t'.callDepth = t.callDepth) : t' = t := by
  obtain ⟨vars, functions, procedures, callDepth⟩ := t
  cases hVars
  cases hFunctions
  cases hProcedures
  cases hDepth
  rfl

/-- What holds of every entry of a map and of a new one holds once that is stored. -/
theorem insert_entries {β : Type} {P : String → β → Prop} {entries : Std.ExtTreeMap String β}
    (hEntries : ∀ (name : String) (b : β), entries[name]? = some b → P name b)
    {key : String} {new : β} (hNew : P key new) (name : String) (b : β)
    (hb : (entries.insert key new)[name]? = some b) : P name b := by
  rw [Std.ExtTreeMap.getElem?_insert] at hb
  split at hb
  · next hKey =>
      cases hb
      exact Std.LawfulEqOrd.eq_of_compare hKey ▸ hNew
  · exact hEntries name b hb

theorem sound_of_vars_eq {t t' : Table} (h : t'.vars = t.vars) (hSound : t.Sound) : t'.Sound := by
  intro name hName
  apply hSound name
  rwa [contains, ← h]

/-- A variable may be stored under any name that is not that of a known constant. -/
theorem Sound.insert {t : Table} (hSound : t.Sound) {name : String}
    (hGlobal : Constant.contains name = false) (v : Variable) :
    ({ t with vars := t.vars.insert name v } : Table).Sound := by
  intro other hOther
  simp only [contains, Std.ExtTreeMap.contains_insert, Bool.or_eq_true,
    Std.LawfulEqOrd.compare_eq_iff_eq, beq_iff_eq] at hOther
  rcases hOther with rfl | hOther
  · exact hGlobal
  · exact hSound other hOther

/-- Making a constant a variable keeps its name. -/
theorem unfreeze_contains (t : Table) (name other : String) :
    (t.unfreeze name).contains other = t.contains other := by
  unfold unfreeze
  cases h : t.vars[name]? with
  | none => rfl
  | some v =>
      by_cases hOther : name = other
      · subst hOther
        simp [contains_eq_isSome, h]
      · simp [contains_eq_isSome, Std.ExtTreeMap.getElem?_insert, hOther]

/-- No single change brings the name of a known constant into a table. -/
theorem Change.sound {t t' : Table} (h : t.Change t') (hSound : t.Sound) : t'.Sound := by
  cases h with
  | none => exact hSound
  | assign stored =>
      obtain ⟨hGlobal, _, rfl⟩ := assign_ok stored
      exact hSound.insert hGlobal _
  | declareConstant stored =>
      obtain ⟨hGlobal, _, rfl⟩ := declareConstant_ok stored
      exact hSound.insert hGlobal _
  | declare stored => exact sound_of_vars_eq (declare_vars stored) hSound
  | merge scope shadows => exact (merge_frame t scope shadows).sound hSound

/-- No change counts a call. -/
theorem Change.callDepth {t t' : Table} (h : t.Change t') : t'.callDepth = t.callDepth := by
  cases h with
  | none => rfl
  | assign stored =>
      obtain ⟨_, _, rfl⟩ := assign_ok stored
      rfl
  | declareConstant stored =>
      obtain ⟨_, _, rfl⟩ := declareConstant_ok stored
      rfl
  | declare stored =>
      rcases declare_ok stored with rfl | rfl
      · rfl
      · rfl
  | merge scope shadows => exact (merge_frame t scope shadows).callDepth

/-- What no single assignment breaks, several in turn do not break. -/
theorem assignAll_keeps {P : Table → Prop} {values : List (String × Float)}
    (hAssign : ∀ t t' name value, (name, value) ∈ values → P t →
      t.assign name value = .ok t' → P t')
    {t t' : Table} (hP : P t) (h : t.assignAll values = .ok t') : P t' := by
  induction values generalizing t with
  | nil =>
      cases h
      exact hP
  | cons entry rest ih =>
      obtain ⟨name, value⟩ := entry
      rw [assignAll] at h
      cases hFirst : t.assign name value with
      | error e =>
          rw [hFirst] at h
          cases h
      | ok middle =>
          rw [hFirst] at h
          have hMiddle := hAssign t middle name value List.mem_cons_self hP hFirst
          exact ih (fun t t' other a hOther => hAssign t t' other a (List.mem_cons_of_mem _ hOther))
            hMiddle h

theorem assignAll_sound {t t' : Table} {values : List (String × Float)} (hSound : t.Sound)
    (h : t.assignAll values = .ok t') : t'.Sound :=
  assignAll_keeps (fun _ _ _ _ _ hSound stored => (Change.assign stored).sound hSound) hSound h

/-- Soundness is kept, which is what all other properties start from. -/
theorem stable_sound : Stable Sound := ⟨fun _ h => h, fun _ _ h hChange => hChange.sound h⟩

theorem stable_callDepth (depth : Nat) : Stable fun t => t.Sound ∧ t.callDepth = depth where
  sound _ h := h.1
  change _ _ h hChange := ⟨hChange.sound h.1, hChange.callDepth.trans h.2⟩

end Table

namespace Statement

open Execution

/-- What no single change breaks, no statement breaks, however it ends. The
bodies that run inside do not matter: their scopes only reach the table by
being copied back. -/
theorem keeps {P : Table → Prop} (hStable : Table.Stable P) (policy : Policy)
    (activate : Activation) (s : Statement) :
    Meets (fun m => P m.table) (s.execute policy activate) (fun _ m => P m.table)
      (fun _ m => P m.table) := by
  cases hs : s.isLoop with
  | false =>
      refine meets_each fun t ht => ?_
      refine (meets_execute (hStable.sound t ht) hs).weaken (fun _ h => h) ?_ ?_
      · exact fun _ m hChange => hStable.change t m.table ht hChange
      · exact fun _ m hTable => hTable.symm ▸ ht
  | true =>
      cases s with
      | whileLoop test body =>
          refine meets_loop (meets_each fun t ht => ?_) (fun _ hm => hm) policy.turns none
          refine (meets_turn (hStable.sound t ht) policy body.shadows _ _).weaken
            (fun _ h => h) ?_ ?_
          · rintro _ m (hTable | ⟨scope, hTable⟩)
            · exact hTable.symm ▸ ht
            · exact hTable.symm ▸ hStable.change t _ ht (.merge scope body.shadows)
          · exact fun _ m hTable => hTable.symm ▸ ht
      | _ => cases hs

/-- A run of one statement keeps what is stable, with calls as deep as the
conditions allow. -/
theorem run_keeps {P : Table → Prop} (hStable : Table.Stable P) (policy : Policy)
    (s : Statement) {m : Machine} (hm : P m.table) : P (s.run policy m).2.table :=
  (keeps hStable policy policy.activation s).state hm

end Statement

/-- The induction is over the ways in which tables come about. -/
theorem Table.Reachable.sound {t : Table} (h : t.Reachable) : t.Sound := by
  induction h with
  | empty =>
      intro name hName
      simp [Table.empty, Table.contains] at hName
  | assign _ stored ih => exact (Table.Change.assign stored).sound ih
  | declareConstant _ stored ih => exact (Table.Change.declareConstant stored).sound ih
  | declare _ stored ih => exact (Table.Change.declare stored).sound ih
  | enterCall _ ih => exact Table.sound_of_vars_eq rfl ih
  | merge shadows _ _ ih _ => exact (Table.Change.merge _ shadows).sound ih
  | unfreeze name _ ih =>
      intro other hOther
      apply ih other
      rwa [Table.unfreeze_contains] at hOther
  | clear _ _ =>
      intro name hName
      simp [Table.clear, Table.empty, Table.contains] at hName
  | run policy s _ ih => exact Statement.run_keeps Table.stable_sound policy s ih

namespace Program

/-- What each statement of a program keeps, the program keeps wherever it stops. -/
theorem execute_keeps {P : Table → Prop} (policy : Policy) (p : Program)
    (h : ∀ s ∈ p, ∀ m : Machine, P m.table → P (s.run policy m).2.table) (value : Option Float) :
    Meets (fun m => P m.table) (p.execute policy value) (fun _ m => P m.table)
      (fun _ m => P m.table) := by
  induction p generalizing value with
  | nil => exact Meets.pure fun _ hm => hm
  | cons s rest ih =>
      refine Meets.bind (Meets.of_state fun m hm => h s List.mem_cons_self m hm) fun outcome => ?_
      refine Meets.bind (Q := fun _ (m : Machine) => P m.table) (fun _ hm => hm) fun seen => ?_
      split
      · exact Meets.pure fun _ hm => hm
      · exact Meets.throw fun _ hm => hm
      · exact Meets.throw fun _ hm => hm
      · exact ih (fun s hs => h s (List.mem_cons_of_mem _ hs)) outcome.value

/-- A run of a program keeps what is stable, no matter which of its statements
fails. -/
theorem run_keeps {P : Table → Prop} (hStable : Table.Stable P) (policy : Policy) (p : Program)
    {m : Machine} (hm : P m.table) : P (p.run policy m).2.table :=
  (execute_keeps policy p (fun s _ _ => s.run_keeps hStable policy) none).state hm

end Program

end Reckoner
