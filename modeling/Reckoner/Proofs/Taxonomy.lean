import Reckoner.Proofs.Progress
import Reckoner.Proofs.Regime
import Reckoner.Proofs.Singles

/-! How running a text can fail. The errors of the language cover everything but
three things: calls that are nested too deeply, loops that no limit ends, and
the remainder of an infinite dividend. The last one escapes although nothing
about the run as a whole is wrong. -/
namespace Reckoner

open Attempt

namespace Number

theorem isNaN_infinity (negative : Bool) : isNaN (infinity negative) = false := by
  rw [isNaN, infinity, code_ofCode negative (Nat.le_refl _)]
  exact decide_eq_false (Nat.lt_irrefl _)

/-- Between the finite numbers and what is not a number are the infinities. -/
theorem eq_infinity_iff {x : Float} :
    (isNaN x = false ∧ isFinite x = false) ↔ ∃ negative, x = infinity negative := by
  constructor
  · rintro ⟨hNumber, hInfinite⟩
    simp only [isNaN, isFinite, decide_eq_false_iff_not, Nat.not_lt] at hNumber hInfinite
    have hCode : code x = Format.double.infinity := Nat.le_antisymm hNumber hInfinite
    exact ⟨isNegative x, by rw [infinity, ← hCode, ofCode_code]⟩
  · rintro ⟨negative, rfl⟩
    exact ⟨isNaN_infinity negative, isFinite_infinity negative⟩

end Number

namespace Arithmetic

/-- The dividend is infinite, and the divisor is a number other than zero. -/
def Undefined (a b : Float) : Prop :=
  (∃ negative, a = Number.infinity negative) ∧ (b == 0.0) = false ∧ Number.isNaN b = false

/-- There is no remainder exactly if the dividend is infinite and the divisor a
number. -/
theorem remainder?_eq_none_iff {a b : Float} :
    remainder? a b = none ↔
      (∃ negative, a = Number.infinity negative) ∧ Number.isNaN b = false := by
  rw [← Number.eq_infinity_iff]
  unfold remainder?
  cases Number.isNaN a <;> cases Number.isNaN b <;> cases Number.isFinite a <;>
    cases Number.isFinite b <;> simp

/-- A divisor of zero is reported before. -/
theorem modulo_eq_undefined_iff {a b : Float} :
    modulo a b = .error .undefinedRemainder ↔ Undefined a b := by
  unfold modulo Undefined
  cases hZero : b == 0.0 with
  | true => simp
  | false =>
      cases hRemainder : remainder? a b with
      | none => simpa using remainder?_eq_none_iff.mp hRemainder
      | some r =>
          have hDefined : ¬ ((∃ negative, a = Number.infinity negative) ∧ Number.isNaN b = false) :=
            fun h => nomatch hRemainder.symm.trans (remainder?_eq_none_iff.mpr h)
          simpa using hDefined

/-- Rounding a result adds one failure, which is an error of the language. -/
theorem settle_error {r : Except Failure Float} {e : Failure} (h : settle r = .error e) :
    r = .error e ∨ e = .math .notANumber := by
  cases r with
  | error e' =>
      cases h
      exact .inl rfl
  | ok a =>
      change (if Number.isNaN (Number.toSingle a) then _ else _) = _ at h
      split at h
      · cases h
        exact .inr rfl
      · cases h

theorem settle_eq_undefined_iff {r : Except Failure Float} :
    settle r = .error .undefinedRemainder ↔ r = .error .undefinedRemainder := by
  constructor
  · intro h
    rcases settle_error h with hr | hNumber
    · exact hr
    · cases hNumber
  · rintro rfl
    rfl

/-- Of all operators, only the remainder can be undefined. -/
theorem binary_eq_undefined_iff {op : Operator} {a b : Float} :
    settle (binary op a b) = .error .undefinedRemainder ↔ op = .mod ∧ Undefined a b := by
  rw [settle_eq_undefined_iff]
  by_cases hMod : op = .mod
  · subst hMod
    simp [binary, modulo_eq_undefined_iff]
  · have hTold := binary_told hMod a b
    constructor
    · intro h
      rw [h] at hTold
      cases hTold
    · exact fun h => absurd h.1 hMod

end Arithmetic

/-- What explains a failure, given which expressions occur: an error of the
language explains itself, a call may be nested too deeply, a run may be without
a limit, and a remainder may be taken whose operands leave it undefined. -/
inductive Failure.Explained (policy : Policy) (occurs : Expr → Prop) : Failure → Prop where
  | error {e : Failure} (listed : e.isError = true) : Explained policy occurs e
  | tooDeep {name : String} {args : List Expr} (calls : occurs (.call name args)) :
      Explained policy occurs .tooDeep
  | endless (unlimited : policy.limit = none) : Explained policy occurs .endless
  | remainder {left right : Expr} {a b : Float} (divides : occurs (.binary .mod left right))
      (operands : Expr.Meet policy left right a b) (undefined : Arithmetic.Undefined a b) :
      Explained policy occurs .undefinedRemainder

namespace Regime

variable (policy : Policy) (occurs : Expr → Prop)

/-- A failure of arithmetic is an error of the language or an undefined remainder. -/
theorem admits_of_explained {r : Except Failure Float}
    (h : ∀ e, r = .error e → e.Explained policy occurs) :
    Admits (fun _ => True) (Failure.Explained policy occurs) r := by
  cases r with
  | ok a => trivial
  | error e => exact h e rfl

/-- Errors of the language explain themselves. -/
theorem explained_of_told {r : Except Failure Float} (hTold : isTold r = true) {e : Failure}
    (h : r = .error e) : e.Explained policy occurs := by
  subst h
  exact .error (Failure.isError_of_told hTold)

/-- Any value may occur, and every failure is explained by the expressions that do. -/
def explained : Regime policy where
  value _ := True
  allows := occurs
  failure := Failure.Explained policy occurs
  zero := trivial
  single _ := trivial
  constant _ := trivial
  number _ := trivial
  unary {op e a} _ _ := by
    refine admits_of_explained policy occurs fun e he => ?_
    rcases Arithmetic.settle_error he with hUnary | rfl
    · exact explained_of_told policy occurs (Arithmetic.unary_told op a) hUnary
    · exact .error rfl
  binary {op left right a b} hOccurs hMeet _ _ := by
    refine admits_of_explained policy occurs fun e he => ?_
    by_cases hUndefined : e = .undefinedRemainder
    · subst hUndefined
      obtain ⟨rfl, hOperands⟩ := Arithmetic.binary_eq_undefined_iff.mp he
      exact .remainder hOccurs hMeet hOperands
    · have hOrdinary := Arithmetic.settle_ordinary (Arithmetic.binary_ordinary op a b)
      rw [he] at hOrdinary
      exact .error (Failure.isError_of_told (Failure.isTold_of_ordinary hOrdinary hUndefined))
  builtin {name args b values} _ _ _ run :=
    admits_of_explained policy occurs fun e he =>
      explained_of_told policy occurs (b.told_call policy values run) he
  error := .error
  tooDeep := .tooDeep
  endless := .endless

end Regime

/-- An expression is part of the body of a subroutine that the table knows. -/
def Table.Mentions (t : Table) (e : Expr) : Prop :=
  ∃ (name : String) (s : Subroutine),
    (t.functions[name]? = some s ∨ t.procedures[name]? = some s) ∧ e ∈ Statement.partsAll s.body

/-- Under the regime that explains failures, a table may hold whatever it holds. -/
theorem Table.obeys_explained (policy : Policy) {t : Table} (h : t.Reachable)
    {occurs : Expr → Prop} (hOccurs : ∀ e, t.Mentions e → occurs e) :
    t.Obeys (Regime.explained policy occurs) where
  reachable := h
  values _ _ _ := trivial
  functions name s hs e he := hOccurs e ⟨name, s, .inl hs, he⟩
  procedures name s hs e he := hOccurs e ⟨name, s, .inr hs, he⟩

section Trees

variable {policy : Policy} {occurs : Expr → Prop} {m : Machine} {f : Failure}
  (hReachable : m.table.Reachable) (hTable : ∀ part, m.table.Mentions part → occurs part)

include hReachable hTable

theorem Machine.obeys_explained : m.Obeys (Regime.explained policy occurs) 0 where
  table := Table.obeys_explained policy hReachable hTable
  run := ⟨Nat.zero_le _, fun _ _ _ _ => trivial⟩

theorem Expr.failure_explained {e : Expr} (he : ∀ part ∈ e.parts, occurs part) {run : Run}
    (hRun : runOn (e.evaluate policy policy.activation m.table) m.run = (.error f, run)) :
    f.Explained policy occurs := by
  have hMachine : m.Obeys (Regime.explained policy occurs) 0 :=
    Machine.obeys_explained hReachable hTable
  have hActivate := Subroutine.obeys_activate (Regime.explained policy occurs) policy.depth
  exact (e.obeys_evaluate hActivate hMachine.table he 0).error hMachine.run hRun

/-- The regime, for a program that was read. -/
theorem Program.failure_explained {p : Program}
    (hp : ∀ part ∈ Statement.partsAll p, occurs part) {m' : Machine}
    (hRun : p.run policy m = (.error f, m')) : f.Explained policy occurs := by
  have hMachine : m.Obeys (Regime.explained policy occurs) 0 :=
    Machine.obeys_explained hReachable hTable
  exact ((p.obeys_execute (Regime.explained policy occurs) hp Regime.holds_none 0).error
    hMachine hRun).1

end Trees

/-- That a text cannot be read is an error of the language. -/
theorem Reading.Yields.explained {α : Type} {post : α → Prop} {r : Except Failure α}
    (hRead : Yields post r) {f : Failure} (h : r = .error f) (policy : Policy)
    (occurs : Expr → Prop) : f.Explained policy occurs := by
  rw [h] at hRead
  obtain ⟨cause, token, rfl⟩ := hRead
  exact .error rfl

/-- Whatever the text and the conditions, and on every table that comes about, a
failure is an error of the language or is explained by an expression of the
text or of a stored subroutine. Besides nesting and missing limits, the only
failure that is no error of the language is a remainder, exactly if its dividend
is infinite and its divisor neither zero nor not a number. -/
theorem failures_explained (policy : Policy) (text : String) (m : Machine)
    (hReachable : m.table.Reachable) :
    (∀ f run, evaluate policy text m = (.error f, run) →
      f.Explained policy fun part => m.table.Mentions part ∨
        ∃ e, Expr.ofText text = .ok e ∧ part ∈ e.parts) ∧
    (∀ f m', execute policy text m = (.error f, m') →
      f.Explained policy fun part => m.table.Mentions part ∨
        ∃ p, Program.ofText text = .ok p ∧ part ∈ Statement.partsAll p) ∧
    ∀ op a b, Arithmetic.settle (Arithmetic.binary op a b) = .error .undefinedRemainder ↔
      op = .mod ∧ Arithmetic.Undefined a b := by
  refine ⟨fun f run hRun => ?_, fun f m' hRun => ?_,
    fun op a b => Arithmetic.binary_eq_undefined_iff⟩
  · unfold evaluate at hRun
    cases hText : Expr.ofText text with
    | error e =>
        rw [hText] at hRun
        cases hRun
        exact (Expr.ofTokens_yields _).explained hText policy _
    | ok e =>
        rw [hText] at hRun
        exact Expr.failure_explained hReachable (fun _ h => .inl h)
          (fun part hPart => .inr ⟨e, rfl, hPart⟩) hRun
  · unfold execute at hRun
    cases hText : Program.ofText text with
    | error e =>
        rw [hText] at hRun
        cases hRun
        exact (Program.ofTokens_yields _).explained hText policy _
    | ok p =>
        rw [hText] at hRun
        exact Program.failure_explained hReachable (fun _ h => .inl h)
          (fun part hPart => .inr ⟨p, rfl, hPart⟩) hRun

/-- The stored function divides what it is given by two. The text has no
remainder of its own, so only the body of the function explains the failure. -/
theorem failures_explained_halving :
    let policy := Policy.usual (some 3) fun _ => 0.5
    let odd : Statement := .define .function "odd" ["x"]
      [.returnValue (some (.binary .mod (.name "x") (.number 2 "2")))]
    let m := (odd.run policy ⟨Table.empty, {}⟩).2
    m.table.Reachable ∧
    (evaluate policy "odd(INFINITY)" m).1 = .error .undefinedRemainder ∧
    Failure.undefinedRemainder.Explained policy fun part => m.table.Mentions part ∨
        ∃ e, Expr.ofText "odd(INFINITY)" = .ok e ∧ part ∈ e.parts := by
  intro policy odd m
  have hReachable : m.table.Reachable := .run policy odd .empty
  have hFails : (evaluate policy "odd(INFINITY)" m).1 = .error .undefinedRemainder := by
    decide +kernel
  refine ⟨hReachable, hFails, ?_⟩
  apply (failures_explained policy "odd(INFINITY)" m hReachable).1 _
    (evaluate policy "odd(INFINITY)" m).2
  rw [← hFails]

/-- A failure is an error of the language, unless calls are nested too deeply or
a loop does not end. -/
def FailsListed (policy : Policy) (text : String) (m : Machine) : Prop :=
  (∀ f run, evaluate policy text m = (.error f, run) →
    f.isError = true ∨ f = .tooDeep ∨ f = .endless) ∧
  ∀ f m', execute policy text m = (.error f, m') →
    f.isError = true ∨ f = .tooDeep ∨ f = .endless

/-- A remainder of infinity is no error of the language. -/
theorem not_failsListed :
    let policy := Policy.usual none fun _ => 0.5
    let m : Machine := ⟨Table.empty, {}⟩
    m.table.Reachable ∧ ¬ FailsListed policy "INFINITY%2" m := by
  intro policy m
  refine ⟨.empty, fun hListed => ?_⟩
  have hFails : (evaluate policy "INFINITY%2" m).1 = .error .undefinedRemainder := by
    decide +kernel
  have hCases := hListed.1 .undefinedRemainder (evaluate policy "INFINITY%2" m).2
    (by rw [← hFails])
  exact absurd hCases (by decide)

end Reckoner
