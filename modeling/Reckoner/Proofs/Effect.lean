import Reckoner.Proofs.Contract
import Reckoner.Proofs.CopyBack

/-! What a statement can do to its table. An expression is only read, and a
statement that is not a loop makes at most one change, as its last step. A loop
makes one change for each turn. All invariants of tables are derived from this. -/
namespace Reckoner

open Attempt

/-- What one statement other than a loop can make of a table. -/
inductive Table.Change (t : Table) : Table → Prop where
  | none : Change t t
  | assign {name : String} {value : Float} {t' : Table}
      (stored : t.assign name value = .ok t') : Change t t'
  | declareConstant {name : String} {value : Float} {t' : Table}
      (stored : t.declareConstant name value = .ok t') : Change t t'
  | declare {kind : Subroutine.Kind} {s : Subroutine} {t' : Table}
      (stored : t.declare kind s = .ok t') : Change t t'
  | merge (scope : Table) (shadows : List String) : Change t (t.merge scope shadows).2

namespace Execution

variable {α : Type}

/-- A contract may be shown for one table at a time. -/
theorem meets_each {P : Table → Prop} {x : Execution α} {post : α → Machine → Prop}
    {fail : Failure → Machine → Prop}
    (h : ∀ t, P t → Meets (fun m => m.table = t) x post fail) :
    Meets (fun m => P m.table) x post fail := fun m hm => h m.table hm m rfl

/-- An expression is only read, whether or not it has a value. -/
theorem meets_reading (P : Table → Prop) (f : Table → Evaluation α) :
    Meets (fun m => P m.table) (reading f) (fun _ m => P m.table) (fun _ m => P m.table) :=
  Meets.of_state fun _ hm => hm

/-- An update that is refused changes nothing. -/
theorem meets_updating (t : Table) (f : Table → Except Failure Table) :
    Meets (fun m => m.table = t) (updating f) (fun _ m => f t = .ok m.table)
      (fun _ m => m.table = t) := by
  rintro m rfl
  rw [runOn_updating]
  cases f m.table with
  | ok table => rfl
  | error e => rfl

/-- On a sound table copying back is completed, so there is no failure to speak
of. -/
theorem meets_merging {t : Table} (hSound : t.Sound) (scope : Table) (shadows : List String)
    (fail : Failure → Machine → Prop) :
    Meets (fun m => m.table = t) (merging scope shadows)
      (fun _ m => m.table = (t.merge scope shadows).2) fail := by
  rintro m rfl
  rw [runOn_merging, Table.merge_isOk hSound]

/-- A body in a scope of its own leaves the table as it was when it fails, and
otherwise the scope in which it ran is copied back. -/
theorem meets_inScope {t : Table} (hSound : t.Sound) (shadows : List String)
    (body : Execution α) :
    Meets (fun m => m.table = t) (inScope shadows body)
      (fun _ m => ∃ scope, m.table = (t.merge scope shadows).2) (fun _ m => m.table = t) := by
  rintro m rfl
  rw [runOn_inScope]
  rcases runOn body m with ⟨e | a, inner⟩
  · rfl
  · simp only [leaving, Table.merge_isOk hSound, Except.map]
    exact ⟨inner.table, rfl⟩

theorem meets_get (t : Table) (fail : Failure → Machine → Prop) :
    Meets (fun m => m.table = t) (get : Execution Machine)
      (fun seen m => m.table = t ∧ seen.table = t) fail := fun _ hm => ⟨hm, hm⟩

theorem meets_halted (pre : Machine → Prop) (fail : Failure → Machine → Prop) :
    Meets pre halted (fun _ => pre) fail := fun _ hm => hm

/-- Counting a turn does not touch the table. -/
theorem meets_tick (P : Table → Prop) (policy : Policy) :
    Meets (fun m => P m.table) (tick policy) (fun _ m => P m.table) (fun _ m => P m.table) := by
  apply Meets.of_state
  intro m hm
  rw [runOn_tick]
  cases policy.limit with
  | none => exact hm
  | some limit =>
      dsimp only
      split <;> exact hm

/-- One turn of a loop leaves the table, or copies the scope of its body back. -/
theorem meets_turn {t : Table} (hSound : t.Sound) (policy : Policy) (shadows : List String)
    (test : Table → Evaluation Float) (body : Execution Outcome) :
    Meets (fun m => m.table = t) (turn policy (reading test) (inScope shadows body))
      (fun _ m => m.table = t ∨ ∃ scope, m.table = (t.merge scope shadows).2)
      (fun _ m => m.table = t) := by
  refine Meets.bind (meets_halted (fun m => m.table = t) _) fun halted => ?_
  cases halted with
  | true => exact Meets.pure fun _ hm => .inl hm
  | false =>
      refine Meets.bind (meets_reading (· = t) test) fun truth => ?_
      split
      · refine Meets.bind (meets_tick (· = t) policy) fun _ => ?_
        refine Meets.bind (meets_inScope hSound shadows body) fun outcome => ?_
        exact Meets.pure fun _ hm => .inr hm
      · exact Meets.pure fun _ hm => .inl hm

/-- A turn leaves a sound table, from which the next one may start. -/
theorem turn_sound {policy : Policy} {shadows : List String} {test : Table → Evaluation Float}
    {body : Execution Outcome} {m m' : Machine} {taken : Option Outcome} (hSound : m.table.Sound)
    (h : runOn (turn policy (reading test) (inScope shadows body)) m = (.ok taken, m')) :
    m'.table.Sound := by
  rcases (meets_turn hSound policy shadows test body).ok rfl h with hTable | ⟨scope, hTable⟩
  · exact hTable ▸ hSound
  · exact hTable ▸ (Table.merge_frame m.table scope shadows).sound hSound

/-- What every turn keeps holds however the loop ends, also when it is given up. -/
theorem meets_loop {keep : Machine → Prop} {fail : Failure → Machine → Prop}
    {turn : Execution (Option Outcome)} (hTurn : Meets keep turn (fun _ => keep) fail)
    (hEndless : ∀ m, keep m → fail .endless m) (turns : Nat) (value : Option Float) :
    Meets keep (loop turn turns value) (fun _ => keep) fail := by
  induction turns generalizing value with
  | zero => exact Meets.throw hEndless
  | succ turns ih =>
      refine Meets.bind hTurn fun outcome => ?_
      cases outcome with
      | none => exact Meets.pure fun _ hm => hm
      | some outcome =>
          obtain ⟨given, flow⟩ := outcome
          cases flow with
          | normal => exact ih _
          | breaking => exact Meets.pure fun _ hm => hm
          | continuing => exact ih _
          | returning => exact Meets.pure fun _ hm => hm

end Execution

namespace Statement

open Execution

variable {policy : Policy} {activate : Activation}

def isLoop : Statement → Bool
  | whileLoop .. => true
  | _ => false

theorem meets_optional (P : Table → Prop) (e : Option Expr) :
    Meets (fun m => P m.table) (execute.optional policy activate e) (fun _ m => P m.table)
      (fun _ m => P m.table) := by
  cases e with
  | none => exact Meets.pure fun _ hm => hm
  | some e => exact Meets.bind (meets_reading P _) fun _ => Meets.pure fun _ hm => hm

/-- An assignment at the root of an expression is carried out only on a name
that the table has. -/
theorem meets_checkTarget (t : Table) (x : String) :
    Meets (fun m => m.table = t)
      (reading fun t => Evaluation.ofExcept
        (Expr.checkTarget t .undeclaredVariable (.name x)))
      (fun _ m => m.table = t ∧ t.contains x = true) (fun _ m => m.table = t) := by
  rintro m rfl
  rw [runOn_reading]
  cases h : Expr.checkTarget m.table .undeclaredVariable (.name x) with
  | error e => rfl
  | ok _ =>
      refine ⟨rfl, ?_⟩
      simp only [Expr.checkTarget] at h
      split at h
      · cases h
      · split at h
        · assumption
        · cases h

/-- An expression that stands by itself stores nothing, unless it is an
assignment to a name, and then only under that name. -/
theorem meets_perform (t : Table) (e : Expr) :
    Meets (fun m => m.table = t) (e.perform policy activate)
      (fun _ m => m.table = t ∨
        ∃ x right value, e = .binary .assign (.name x) right ∧ t.contains x = true ∧
          t.assign x value = .ok m.table)
      (fun _ m => m.table = t) := by
  unfold Expr.perform
  split
  · next x right =>
      refine Meets.bind (meets_checkTarget t x) fun _ => Meets.fact fun hKnown => ?_
      refine Meets.bind (meets_reading (· = t) _) fun value => ?_
      refine Meets.bind (meets_updating t _) fun _ => ?_
      exact Meets.pure fun _ hStored => .inr ⟨x, right, value, rfl, hKnown, hStored⟩
  · exact Meets.bind (meets_reading (· = t) _) fun _ => Meets.pure fun _ hm => .inl hm

/-- A statement that is not a loop makes at most one change to a sound table,
and none at all if it fails. -/
theorem meets_execute {t : Table} (hSound : t.Sound) {s : Statement} (hs : s.isLoop = false) :
    Meets (fun m => m.table = t) (s.execute policy activate) (fun _ m => t.Change m.table)
      (fun _ m => m.table = t) := by
  have hScope (body : Statement) :
      Meets (fun m => m.table = t) (inScope body.shadows (body.execute policy activate))
        (fun _ m => t.Change m.table) (fun _ m => m.table = t) :=
    (meets_inScope hSound body.shadows _).weaken (fun _ h => h)
      (fun _ _ ⟨scope, h⟩ => h ▸ .merge scope body.shadows) (fun _ _ h => h)
  cases s with
  | expression e =>
      refine (meets_perform t e).weaken (fun _ h => h) ?_ (fun _ _ h => h)
      rintro _ m (h | ⟨x, right, value, _, _, hStored⟩)
      · exact h ▸ .none
      · exact .assign hStored
  | block body =>
      exact (meets_inScope hSound (shadows (block body)) _).weaken (fun _ h => h)
        (fun _ _ ⟨scope, h⟩ => h ▸ .merge scope (shadows (block body))) (fun _ _ h => h)
  | ifThen test yes =>
      refine Meets.bind (meets_reading (· = t) _) fun truth => ?_
      split
      · exact hScope yes
      · exact Meets.pure fun _ hm => hm ▸ .none
  | ifElse test yes no =>
      refine Meets.bind (meets_reading (· = t) _) fun truth => ?_
      split
      · exact hScope yes
      · exact hScope no
  | whileLoop test body => cases hs
  | breakLoop => exact Meets.pure fun _ hm => hm ▸ .none
  | continueLoop => exact Meets.pure fun _ hm => hm ▸ .none
  | returnValue e =>
      refine Meets.bind (meets_get t _) fun seen => Meets.fact fun _ => ?_
      split
      · exact Meets.throw fun _ hm => hm
      · refine Meets.bind (meets_optional (· = t) e) fun value => ?_
        exact Meets.pure fun _ hm => hm ▸ .none
  | endRun e =>
      refine Meets.bind (meets_optional (· = t) e) fun value => ?_
      refine Meets.bind (Q := fun _ (m : Machine) => m.table = t) (Meets.modify fun _ hm => hm)
        fun _ => ?_
      exact Meets.pure fun _ hm => hm ▸ .none
  | letVar name init =>
      refine Meets.bind (meets_optional (· = t) init) fun value => ?_
      refine Meets.bind (meets_updating t _) fun _ => ?_
      exact Meets.pure fun _ hStored => .assign hStored
  | constVar name init =>
      refine Meets.bind (meets_reading (· = t) _) fun value => ?_
      refine Meets.bind (meets_updating t _) fun _ => ?_
      exact Meets.pure fun _ hStored => .declareConstant hStored
  | define kind name params body =>
      refine Meets.bind (meets_updating t _) fun _ => ?_
      exact Meets.pure fun _ hStored => .declare hStored
  | call name args =>
      refine Meets.bind (meets_get t _) fun seen => Meets.fact fun _ => ?_
      split
      · refine Meets.bind (meets_reading (· = t) _) fun value => ?_
        exact Meets.pure fun _ hm => hm ▸ .none
      · refine Meets.bind (meets_reading (· = t) _) fun values => ?_
        refine Meets.bind (meets_reading (· = t) _) fun result => ?_
        refine Meets.bind (meets_merging hSound result.1 _ _) fun _ => ?_
        exact Meets.pure fun _ hm => hm ▸ .merge result.1 _

end Statement
end Reckoner
