import Reckoner.Proofs.Singles
import Reckoner.Proofs.Spelling

/-! Numbers stay numbers. No operator, constant, literal or function but `rand`
makes anything but a number out of numbers, so a run that never calls `rand`
never holds a value that is not a number. -/
namespace Reckoner

open Attempt

namespace Number

/-- A double that was rounded from a rational number is a number. -/
theorem isNaN_ofUnits (negative : Bool) (num den : Nat) :
    isNaN (ofUnits negative num den) = false := by
  have hNearest : Format.double.nearest num den ≤ Format.double.infinity := by
    unfold Format.nearest
    exact Nat.min_le_right _ _
  rw [isNaN, ofUnits, code_ofCode negative hNearest]
  exact decide_eq_false (Nat.not_lt.mpr hNearest)

/-- Rounding gives a number or an infinity. -/
theorem isNaN_toSingle {x : Float} (h : isNaN x = false) : isNaN (toSingle x) = false := by
  unfold toSingle
  split
  · split
    · exact isNaN_ofUnits _ _ _
    · exact isNaN_infinity _
  · exact h

end Number

open Number

theorem Decimal.isNaN_toFloat (d : Decimal) (negative : Bool) :
    isNaN (d.toFloat negative) = false := by
  unfold toFloat
  split
  · exact isNaN_ofUnits _ _ _
  · exact isNaN_ofUnits _ _ _

/-- Every literal that has a value is a number, whatever base it is written in. -/
theorem Literal.isNaN_value {text : String} {a : Float} (h : Literal.value? text = some a) :
    isNaN a = false := by
  have hRadix {radix : Nat} {digits : List Char} {b : Float}
      (hb : radixValue? radix digits = some b) : isNaN b = false := by
    unfold radixValue? at hb
    dsimp only at hb
    split at hb
    · cases hb
    · cases hb
      exact Decimal.isNaN_toFloat _ _
  unfold value? at h
  obtain ⟨b, hb, rfl⟩ := Option.map_eq_some_iff.mp h
  apply isNaN_toSingle
  split at hb
  · exact hRadix hb
  · exact hRadix hb
  · exact hRadix hb
  · exact hRadix hb
  · cases hb
    exact Decimal.isNaN_toFloat _ _

/-- The constants that every program knows are numbers, the infinity among them. -/
theorem Constant.isNaN_value {name : String} {a : Float} (h : Constant.value? name = some a) :
    isNaN a = false := by
  have hAll : all.all (fun entry => !isNaN entry.2) = true := by decide +kernel
  have hMem : (name, a) ∈ all := by
    obtain ⟨before, after, hSplit, _⟩ := List.lookup_eq_some_iff.mp h
    simp [hSplit]
  simpa using List.all_eq_true.mp hAll (name, a) hMem

/-- The result of an operator is refused if it is not a number. -/
theorem Arithmetic.isNaN_settle {r : Except Failure Float} {a : Float} (h : settle r = .ok a) :
    isNaN a = false := by
  cases r with
  | error e => cases h
  | ok b =>
      change (if isNaN (toSingle b) then _ else _) = _ at h
      split at h
      · cases h
      · next hNumber =>
          cases h
          exact Bool.eq_false_iff.mpr hNumber

theorem Builtin.name_eq {name : String} {b : Builtin} (h : ofName? name = some b) :
    b.name = name :=
  of_decide_eq_true (List.find?_some (p := fun b : Builtin => decide (b.name = name)) h)

namespace Builtin

variable {b : Builtin} {args : List Float} (hArgs : ∀ a ∈ args, isNaN a = false)

include hArgs

/-- A function accepts a value that is no number only if an argument was none. -/
theorem isNaN_defined {given : Option Float} {a : Float} (h : b.defined args given = .ok a) :
    isNaN a = false := by
  have hNone : args.any isNaN = false := List.any_eq_false.mpr fun a ha => by simp [hArgs a ha]
  cases given with
  | none => cases h
  | some r =>
      rw [defined, hNone] at h
      cases hr : isNaN r with
      | true => simp [hr] at h
      | false =>
          simp only [hr] at h
          cases h
          exact hr

/-- The least and the greatest argument are among the arguments. -/
theorem isNaN_foldl {pick : Float → Float → Float} (hPick : ∀ a b, pick a b = a ∨ pick a b = b)
    {first : Float} (hFirst : isNaN first = false) : isNaN (args.foldl pick first) = false := by
  refine List.foldlRecOn (motive := fun best => isNaN best = false) args pick hFirst
    fun best hBest a ha => ?_
  rcases hPick best a with hBetter | hBetter <;> rw [hBetter]
  · exact hBest
  · exact hArgs a ha

/-- All functions but `rand` make numbers of numbers. One case for each way to
compute the value. -/
theorem isNaN_apply (hb : b ≠ .rand) (policy : Policy) {run run' : Run} {a : Float}
    (h : runOn (b.apply policy args) run = (.ok a, run')) : isNaN a = false := by
  have hDefined {b : Builtin} {given : Option Float}
      (h : runOn (Evaluation.ofExcept (b.defined args given)) run = (.ok a, run')) :
      isNaN a = false := by
    cases hGiven : b.defined args given with
    | error e =>
        rw [hGiven] at h
        cases h
    | ok r =>
        rw [hGiven] at h
        cases h
        exact isNaN_defined hArgs hGiven
  have hPicked {first : Float} {rest : List Float} (hAll : first :: rest = args)
      {pick : Float → Float → Float} (hPick : ∀ a b, pick a b = a ∨ pick a b = b) :
      isNaN (rest.foldl pick first) = false := by
    subst hAll
    exact isNaN_foldl (fun a ha => hArgs a (List.mem_cons_of_mem first ha)) hPick
      (hArgs first List.mem_cons_self)
  unfold apply at h
  split at h
  · exact absurd rfl hb
  · exact absurd rfl hb
  · exact absurd rfl hb
  · exact hDefined h
  · cases h
  · cases h
    exact hPicked rfl fun best a => by split <;> simp
  · cases h
    exact hPicked rfl fun best a => by split <;> simp
  · exact hDefined h
  · cases h

/-- The rounding after it changes nothing about this. -/
theorem isNaN_call (hb : b ≠ .rand) (policy : Policy) {run run' : Run} {a : Float}
    (h : runOn (b.call policy args) run = (.ok a, run')) : isNaN a = false := by
  unfold call at h
  split at h
  · cases h
  · obtain ⟨r, _, hApply, h⟩ := bind_ok_iff.mp h
    cases h
    exact isNaN_toSingle (isNaN_apply hArgs hb policy hApply)

end Builtin

/-- Whether an expression is itself a call of this subroutine. -/
def Expr.calls (callee : String) : Expr → Bool
  | call other _ => other == callee
  | _ => false

namespace Regime

theorem admits_of_number {r : Except Failure Float} (h : ∀ a, r = .ok a → isNaN a = false) :
    Admits (fun a => isNaN a = false) (fun _ => True) r := by
  cases r with
  | ok a => exact h a rfl
  | error e => trivial

/-- Values are numbers, literals are spelled, and nothing calls `rand`. -/
def numeric (policy : Policy) : Regime policy where
  value a := isNaN a = false
  allows e := e.IsSpelled ∧ e.calls "rand" = false
  failure _ := True
  zero := by decide +kernel
  single := isNaN_toSingle
  constant := Constant.isNaN_value
  number h := Literal.isNaN_value h.1
  unary _ _ := admits_of_number fun _ => Arithmetic.isNaN_settle
  binary _ _ _ _ := admits_of_number fun _ => Arithmetic.isNaN_settle
  builtin {name args b values} hAllowed hName hValues run := by
    -- `rand` has no other name by which it could be called.
    have hKnown : b ≠ .rand := by
      rintro rfl
      have hCalled := hAllowed.2
      rw [Expr.calls, ← Builtin.name_eq hName] at hCalled
      exact absurd hCalled (by decide)
    exact admits_of_number fun a ha => Builtin.isNaN_call hValues hKnown policy (Prod.ext ha rfl)
  error _ := trivial
  tooDeep _ := trivial
  endless _ := trivial

end Regime

/-- A table in which all values are numbers and no subroutine calls `rand`. -/
structure Table.Numeric (t : Table) : Prop where
  numbers : ∀ (name : String) (v : Variable), t.vars[name]? = some v → isNaN v.value = false
  quiet : ∀ e, t.Mentions e → e.calls "rand" = false

theorem Table.Obeys.isNumeric {policy : Policy} {t : Table}
    (h : t.Obeys (Regime.numeric policy)) : t.Numeric :=
  ⟨h.values, fun _ he => (h.mentions he).2⟩

/-- The numbers in stored subroutines are spelled, since the table is
attainable. -/
theorem Table.Attainable.obeys_numeric {t : Table} (h : t.Attainable) (hNumeric : t.Numeric)
    (policy : Policy) : t.Obeys (Regime.numeric policy) where
  reachable := h.faithful.reachable
  values := hNumeric.numbers
  functions name s hs e he :=
    have hMentions : t.Mentions e := ⟨name, s, .inl hs, he⟩
    ⟨h.faithful.spelled e hMentions, hNumeric.quiet e hMentions⟩
  procedures name s hs e he :=
    have hMentions : t.Mentions e := ⟨name, s, .inr hs, he⟩
    ⟨h.faithful.spelled e hMentions, hNumeric.quiet e hMentions⟩

/-- Whatever the limit and the random numbers: if a table holds numbers only and
neither it nor the text calls `rand`, then every value that the text gives is a
number, and whether or not the text succeeds, the table holds numbers only. A run
that had ended before would give what it ended with, so that must be a number,
too. -/
theorem numbers_without_rand (policy : Policy) (m : Machine) (hTable : m.table.Attainable)
    (hNumeric : m.table.Numeric)
    (hExit : ∀ a, m.run.exit = some (some a) → isNaN a = false) :
    (∀ text e, Expr.ofText text = .ok e → (∀ part ∈ e.parts, part.calls "rand" = false) →
      ∀ a run, evaluate policy text m = (.ok a, run) → isNaN a = false) ∧
    (∀ text p, Program.ofText text = .ok p →
      (∀ part ∈ Statement.partsAll p, part.calls "rand" = false) →
      (∀ a m', execute policy text m = (.ok (some a), m') → isNaN a = false) ∧
      (execute policy text m).2.table.Numeric) := by
  have hObeys : m.Obeys (Regime.numeric policy) 0 := by
    refine ⟨hTable.obeys_numeric hNumeric policy, Nat.zero_le _, ?_⟩
    rintro given hGiven a rfl
    exact hExit a hGiven
  refine ⟨fun text e hText hQuiet a run hRun => ?_, fun text p hText hQuiet => ?_⟩
  · have hCovers : (Regime.numeric policy).Covers e.parts :=
      fun part hPart => ⟨Expr.ofText_spelled hText part hPart, hQuiet part hPart⟩
    have hActivate := Subroutine.obeys_activate (Regime.numeric policy) policy.depth
    rw [evaluate, hText] at hRun
    exact ((e.obeys_evaluate hActivate hObeys.table hCovers 0).ok hObeys.run hRun).2
  · have hCovers : (Regime.numeric policy).Covers (Statement.partsAll p) :=
      fun part hPart => ⟨Program.ofText_spelled hText part hPart, hQuiet part hPart⟩
    have hProgram := p.obeys_execute (Regime.numeric policy) hCovers Regime.holds_none 0
    have hExecute : execute policy text m = p.run policy m := by rw [execute, hText]
    rw [hExecute]
    refine ⟨fun a m' hRun => (hProgram.ok hObeys hRun).2 a rfl, ?_⟩
    exact ((hProgram.weaken (fun _ h => h) (fun _ _ h => h.1.table) (fun _ _ h => h.2)).state
      hObeys).isNumeric

/-- A function to be stored. -/
def halving : String := "fn half(y) \x7breturn y/2\x7d"

/-- The first statement stores an infinity. The second one fails, because nothing
is left of an infinity without itself that would be a number. -/
def cancelling : String := "let x=half(INFINITY); x=x-x"

/-- Random numbers would not even be numbers here, but nothing draws any. -/
theorem numbers_without_rand_cancelling :
    let policy := Policy.usual (some 5) fun _ => Float.nan
    let m : Machine := ⟨(execute policy halving ⟨Table.empty, {}⟩).2.table, {}⟩
    m.table.Attainable ∧ m.table.Numeric ∧
    (execute policy cancelling m).1 = .error (.math .notANumber) ∧
    (execute policy cancelling m).2.table.Numeric ∧
    (evaluate policy "half(INFINITY)" m).1 = .ok (Number.infinity false) ∧
    isNaN (Number.infinity false) = false := by
  intro policy m
  have hQuiet {α : Type} {r : Except Failure α} (parts : α → List Expr)
      (h : (r.toOption.map fun a => (parts a).all fun part => !part.calls "rand") = some true) :
      ∃ a, r = .ok a ∧ ∀ part ∈ parts a, part.calls "rand" = false := by
    cases r with
    | error e => cases h
    | ok a => exact ⟨a, rfl, by simpa [Except.toOption] using h⟩
  have hEmpty : Table.empty.Numeric := by
    refine ⟨fun name v hv => ?_, ?_⟩
    · simp [Table.empty] at hv
    · rintro e ⟨name, s, hStored | hStored, _⟩ <;> simp [Table.empty] at hStored
  have hTable : m.table.Attainable := Table.Attainable.empty.execute policy halving
  have hNumeric : m.table.Numeric := by
    obtain ⟨p, hText, hp⟩ := hQuiet (r := Program.ofText halving) Statement.partsAll
      (by decide +kernel)
    have hStart := numbers_without_rand policy ⟨Table.empty, {}⟩ .empty hEmpty (by simp)
    exact (hStart.2 halving p hText hp).2
  have hNumbers := numbers_without_rand policy m hTable hNumeric (by simp [m])
  obtain ⟨p, hText, hp⟩ := hQuiet (r := Program.ofText cancelling) Statement.partsAll
    (by decide +kernel)
  obtain ⟨e, hExpr, he⟩ := hQuiet (r := Expr.ofText "half(INFINITY)") Expr.parts
    (by decide +kernel)
  have hHalf : (evaluate policy "half(INFINITY)" m).1 = .ok (Number.infinity false) := by
    decide +kernel
  refine ⟨hTable, hNumeric, by decide +kernel, (hNumbers.2 cancelling p hText hp).2, hHalf, ?_⟩
  exact hNumbers.1 "half(INFINITY)" e hExpr he _ (evaluate policy "half(INFINITY)" m).2
    (by rw [← hHalf])

end Reckoner
