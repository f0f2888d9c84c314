import Reckoner.Proofs.Reachable
import Reckoner.Proofs.Stops
import Mathlib.Tactic.Common

/-! Where the statements that divert control may stand. Whether a `break`, a
`continue` or a `return` finds the loop or the subroutine that it leaves is
checked while a program runs. If the program is well placed, which is seen by
reading it, these checks never fail. -/
namespace Reckoner

open Attempt

/-- Whether a failure complains about a statement that diverts control where
there is nothing to leave. -/
def Failure.isMisplaced : Failure → Bool
  | .flow .breakOutsideLoop | .flow .continueOutsideLoop | .flow (.invalidReturn _) => true
  | _ => false

/-- Operations on numbers, names and tables never complain about control. -/
theorem Failure.isMisplaced_of_ordinary {e : Failure} (h : e.isOrdinary = true) :
    e.isMisplaced = false := by
  unfold isMisplaced
  split
  · cases h
  · cases h
  · cases h
  · rfl

namespace Statement

mutual

/-- Whether every `break` and `continue` lies in a loop and every `return` in a
subroutine, given whether the statement itself lies in them. The body of a
subroutine lies in no loop but its own. -/
def wellPlaced (inLoop inCall : Bool) : Statement → Bool
  | block body => wellPlacedAll inLoop inCall body
  | ifThen _ yes => yes.wellPlaced inLoop inCall
  | ifElse _ yes no => yes.wellPlaced inLoop inCall && no.wellPlaced inLoop inCall
  | whileLoop _ body => body.wellPlaced true inCall
  | breakLoop | continueLoop => inLoop
  | returnValue _ => inCall
  | define _ _ _ body => wellPlacedAll false true body
  | _ => true

def wellPlacedAll (inLoop inCall : Bool) : List Statement → Bool
  | [] => true
  | s :: rest => s.wellPlaced inLoop inCall && wellPlacedAll inLoop inCall rest

end

end Statement

def Subroutine.wellPlaced (s : Subroutine) : Bool := Statement.wellPlacedAll false true s.body

/-- A program lies in no loop and in no subroutine. -/
def Program.wellPlaced (p : Program) : Bool := Statement.wellPlacedAll false false p

namespace Table

/-- All the subroutines that the table knows have well placed bodies. -/
structure WellPlaced (t : Table) : Prop where
  functions : ∀ (name : String) (s : Subroutine), t.functions[name]? = some s → s.wellPlaced = true
  procedures : ∀ (name : String) (s : Subroutine),
    t.procedures[name]? = some s → s.wellPlaced = true

theorem wellPlaced_empty : empty.WellPlaced where
  functions name s h := by simp [empty] at h
  procedures name s h := by simp [empty] at h

/-- Only declarations matter. -/
theorem WellPlaced.congr {t t' : Table} (h : t.WellPlaced) (hFunctions : t'.functions = t.functions)
    (hProcedures : t'.procedures = t.procedures) : t'.WellPlaced where
  functions name s hs := h.functions name s (hFunctions ▸ hs)
  procedures name s hs := h.procedures name s (hProcedures ▸ hs)

/-- A table on which a statement may run: inside a subroutine some call is
under way. -/
structure Ready (inCall : Bool) (t : Table) : Prop where
  wellPlaced : t.WellPlaced
  called : inCall = true → t.callDepth ≠ 0

/-- Besides the declarations, whether a call is under way must not change. -/
theorem Ready.congr {inCall : Bool} {t t' : Table} (h : t.Ready inCall)
    (hFunctions : t'.functions = t.functions) (hProcedures : t'.procedures = t.procedures)
    (hDepth : t'.callDepth = t.callDepth) : t'.Ready inCall where
  wellPlaced := h.wellPlaced.congr hFunctions hProcedures
  called hCall := by
    rw [hDepth]
    exact h.called hCall

/-- What a frame leaves alone includes all of this. -/
theorem Frame.ready {inCall : Bool} {shadows : List String} {t t' : Table}
    (h : Frame shadows t t') (hReady : t.Ready inCall) : t'.Ready inCall :=
  hReady.congr h.functions h.procedures h.callDepth

/-- Assignments change variables only. -/
theorem store_ready {inCall : Bool} {t t' : Table} {name : String} {value : Float}
    (hReady : t.Ready inCall) (h : t.assign name value = .ok t') : t'.Ready inCall := by
  obtain ⟨_, _, rfl⟩ := assign_ok h
  exact hReady.congr rfl rfl rfl

theorem assignAll_ready {inCall : Bool} {t t' : Table} {values : List (String × Float)}
    (hReady : t.Ready inCall) (h : t.assignAll values = .ok t') : t'.Ready inCall :=
  assignAll_keeps (fun _ _ _ _ _ hReady stored => store_ready hReady stored) hReady h

/-- Declarations of constants add no subroutine. -/
theorem declareConstant_ready {inCall : Bool} {t t' : Table} {name : String} {value : Float}
    (hReady : t.Ready inCall) (h : t.declareConstant name value = .ok t') : t'.Ready inCall := by
  obtain ⟨_, _, rfl⟩ := declareConstant_ok h
  exact hReady.congr rfl rfl rfl

/-- A declaration is the one change that adds a body. -/
theorem declare_ready {inCall : Bool} {t t' : Table} {kind : Subroutine.Kind} {s : Subroutine}
    (hReady : t.Ready inCall) (hs : s.wellPlaced = true) (h : t.declare kind s = .ok t') :
    t'.Ready inCall := by
  obtain ⟨⟨hFunctions, hProcedures⟩, hCalled⟩ := hReady
  rcases declare_ok h with rfl | rfl
  · exact ⟨⟨insert_entries hFunctions hs, hProcedures⟩, hCalled⟩
  · exact ⟨⟨hFunctions, insert_entries hProcedures hs⟩, hCalled⟩

end Table

namespace Attempt

variable {σ α β γ : Type}

/-- A computation that never complains about a misplaced statement. -/
def Placid (x : Attempt σ α) : Prop :=
  Meets (fun _ => True) x (fun _ _ => True) fun e _ => e.isMisplaced = false

/-- Computations that fail only in ordinary ways never complain. -/
theorem Inert.placid {view : σ → γ} {x : Attempt σ α} (h : Inert view x) : Placid x := by
  intro s _
  have hOrdinary := (h s).2
  rcases hRun : runOn x s with ⟨e | a, s'⟩
  · rw [hRun] at hOrdinary
    exact Failure.isMisplaced_of_ordinary hOrdinary
  · trivial

theorem placid_pure (a : α) : Placid (pure a : Attempt σ α) := Meets.pure fun _ _ => trivial

theorem placid_throw {e : Failure} (h : e.isMisplaced = false) :
    Placid (throw e : Attempt σ α) := Meets.throw fun _ _ => h

/-- Two computations without complaint are one. -/
theorem placid_bind {x : Attempt σ α} {f : α → Attempt σ β} (hFirst : Placid x)
    (hRest : ∀ a, Placid (f a)) : Placid (x >>= f) := Meets.bind hFirst hRest

end Attempt

/-- A result that is at hand, with the value known afterwards. -/
theorem Evaluation.meets_ofExcept {α : Type} {r : Except Failure α} (h : isOrdinary r = true) :
    Meets (fun _ => True) (ofExcept r) (fun a _ => True ∧ r = .ok a)
      fun e _ => e.isMisplaced = false := by
  cases r with
  | ok a => exact Meets.pure fun _ _ => ⟨trivial, rfl⟩
  | error e => exact Meets.throw fun _ _ => Failure.isMisplaced_of_ordinary h

theorem Evaluation.placid_ofExcept {α : Type} {r : Except Failure α} (h : isOrdinary r = true) :
    Placid (ofExcept r) :=
  (meets_ofExcept h).weaken (fun _ h => h) (fun _ _ _ => trivial) fun _ _ h => h

/-- Well placed subroutines are carried out without complaint. -/
def Activation.Placid (activate : Activation) : Prop :=
  ∀ s args t, s.wellPlaced = true → t.WellPlaced → Attempt.Placid (activate s args t)

namespace Expr

variable {policy : Policy} {activate : Activation}

mutual

/-- The induction is on the expression. Complaints could come only from calls,
and these are assumed to have none. -/
theorem placid_evaluate (hActivate : Activation.Placid activate) {t : Table} (ht : t.WellPlaced)
    (e : Expr) : Placid (e.evaluate policy activate t) := by
  match e with
  | number value _ => exact placid_pure value
  | name x => exact Evaluation.placid_ofExcept (lookup_ordinary t x)
  | unary op e =>
      refine placid_bind (placid_evaluate hActivate ht e) fun a => Evaluation.placid_ofExcept ?_
      exact Arithmetic.settle_ordinary (Arithmetic.unary_ordinary op a)
  | binary op left right =>
      have hRight : Placid (right.evaluate policy activate t) := placid_evaluate hActivate ht right
      have hOperands : Placid (do
          let a ← left.evaluate policy activate t
          let b ← right.evaluate policy activate t
          Evaluation.ofExcept (Arithmetic.settle (Arithmetic.binary op a b))) := by
        refine placid_bind (placid_evaluate hActivate ht left) fun a => ?_
        refine placid_bind hRight fun b => Evaluation.placid_ofExcept ?_
        exact Arithmetic.settle_ordinary (Arithmetic.binary_ordinary op a b)
      cases op with
      | assign =>
          have hTarget := checkTarget_ordinary t .variableNotFound left
          exact placid_bind (Evaluation.placid_ofExcept hTarget) fun _ => hRight
      | _ => exact hOperands
  | call callee args =>
      have hArgs : Placid (evaluateAll policy activate t args) :=
        placid_evaluateAll hActivate ht args
      unfold evaluate
      cases Builtin.ofName? callee with
      | some builtin =>
          exact placid_bind hArgs fun values => (Builtin.inert_call policy builtin values).placid
      | none =>
          cases hFunction : t.functions[callee]? with
          | some function =>
              have hPlaced := ht.functions callee function hFunction
              refine placid_bind hArgs fun values => ?_
              exact placid_bind (hActivate function values t hPlaced ht) fun _ => placid_pure _
          | none =>
              exact placid_throw (Failure.isMisplaced_of_ordinary (uncallable_ordinary t callee))

theorem placid_evaluateAll (hActivate : Activation.Placid activate) {t : Table}
    (ht : t.WellPlaced) (es : List Expr) : Placid (evaluateAll policy activate t es) := by
  match es with
  | [] => exact placid_pure []
  | e :: rest =>
      refine placid_bind (placid_evaluate hActivate ht e) fun value => ?_
      exact placid_bind (placid_evaluateAll hActivate ht rest) fun values => placid_pure _

end

end Expr

namespace Flow

/-- How control may go on after a statement that is well placed. Only inside a
loop may it leave or repeat a turn. -/
def fits (inLoop : Bool) : Flow → Bool
  | breaking | continuing => inLoop
  | normal | returning => true

end Flow

namespace Execution

variable {α β : Type} {inCall : Bool}

/-- An execution that keeps its table ready and never complains. -/
def Placid (inCall : Bool) (x : Execution α) (post : α → Prop) : Prop :=
  Meets (fun m => m.table.Ready inCall) x (fun a m => m.table.Ready inCall ∧ post a)
    fun e _ => e.isMisplaced = false

theorem placid_pure {a : α} {post : α → Prop} (h : post a) :
    Placid inCall (pure a : Execution α) post := Meets.pure fun _ hm => ⟨hm, h⟩

/-- Two executions without complaint are one, and the second may use what is
known of the first value. -/
theorem placid_bind {x : Execution α} {f : α → Execution β} {Q : α → Prop} {post : β → Prop}
    (hFirst : Placid inCall x Q) (hRest : ∀ a, Q a → Placid inCall (f a) post) :
    Placid inCall (x >>= f) post :=
  Meets.bind hFirst fun a => Meets.fact fun ha => hRest a ha

/-- What the machine looks like is known when it is looked at. -/
theorem placid_get : Placid inCall (get : Execution Machine) fun m => m.table.Ready inCall :=
  fun _ hm => ⟨hm, hm⟩

theorem placid_halted : Placid inCall halted fun _ => True := fun _ hm => ⟨hm, trivial⟩

/-- An evaluation cannot change the table, so it stays ready. -/
theorem placid_reading {f : Table → Evaluation α}
    (h : ∀ t, t.WellPlaced → Attempt.Placid (f t)) :
    Placid inCall (reading f) fun _ => True := by
  intro m hm
  have hValue := h m.table hm.wellPlaced m.run trivial
  rw [runOn_reading]
  rcases hRun : runOn (f m.table) m.run with ⟨e | a, run⟩
  · rw [hRun] at hValue
    exact hValue
  · exact ⟨hm, trivial⟩

/-- An update has to keep the table ready and may be refused in ordinary ways. -/
theorem placid_updating {f : Table → Except Failure Table}
    (hKeeps : ∀ t t', t.Ready inCall → f t = .ok t' → t'.Ready inCall)
    (hOrdinary : ∀ t, isOrdinary (f t) = true) : Placid inCall (updating f) fun _ => True := by
  intro m hm
  rw [runOn_updating]
  cases hResult : f m.table with
  | ok table => exact ⟨hKeeps m.table table hm hResult, trivial⟩
  | error e =>
      have hError := hOrdinary m.table
      rw [hResult] at hError
      exact Failure.isMisplaced_of_ordinary hError

/-- Merging touches variables only. -/
theorem placid_merging (scope : Table) (shadows : List String) :
    Placid inCall (merging scope shadows) fun _ => True := by
  intro m hm
  have hError := Table.merge_ordinary m.table scope shadows
  rw [runOn_merging]
  cases hResult : (m.table.merge scope shadows).1 with
  | ok _ => exact ⟨(Table.merge_frame m.table scope shadows).ready hm, trivial⟩
  | error e =>
      rw [hResult] at hError
      exact Failure.isMisplaced_of_ordinary hError

/-- What the body declares stays in its scope. -/
theorem placid_inScope {body : Execution α} {post : α → Prop} (h : Placid inCall body post)
    (shadows : List String) : Placid inCall (inScope shadows body) post := by
  intro m hm
  have hBody := h m hm
  rw [runOn_inScope]
  rcases hRun : runOn body m with ⟨e | a, inner⟩
  · rw [hRun] at hBody
    exact hBody
  · rw [hRun] at hBody
    have hMerged := placid_merging inner.table shadows m hm
    rw [runOn_merging] at hMerged
    simp only [leaving]
    cases hResult : (m.table.merge inner.table shadows).1 with
    | ok _ =>
        rw [hResult] at hMerged
        exact ⟨hMerged.1, hBody.2⟩
    | error e =>
        rw [hResult] at hMerged
        exact hMerged

theorem placid_tick (policy : Policy) : Placid inCall (tick policy) fun _ => True := by
  intro m hm
  rw [runOn_tick]
  cases policy.limit with
  | none => exact ⟨hm, trivial⟩
  | some limit =>
      by_cases hBeyond : limit < (m.run.steps + 1 : Nat)
      · simp only [hBeyond, if_true, Failure.isMisplaced]
      · simp only [hBeyond, if_false]
        exact ⟨hm, trivial⟩

/-- How the body of a turn wants to go on is left to the loop. -/
theorem placid_turn (policy : Policy) {test : Execution Float} {body : Execution Outcome}
    {post : Outcome → Prop} (hTest : Placid inCall test fun _ => True)
    (hBody : Placid inCall body post) :
    Placid inCall (turn policy test body) fun _ => True := by
  refine placid_bind placid_halted fun ended _ => ?_
  split
  · exact placid_pure trivial
  · refine placid_bind hTest fun truth _ => ?_
    split
    · refine placid_bind (placid_tick policy) fun _ _ => ?_
      exact placid_bind hBody fun outcome _ => placid_pure trivial
    · exact placid_pure trivial

/-- A loop takes a `break` or a `continue` of its turns for itself. -/
theorem placid_loop {turn : Execution (Option Outcome)} (h : Placid inCall turn fun _ => True)
    (inLoop : Bool) (turns : Nat) (value : Option Float) :
    Placid inCall (loop turn turns value) fun outcome => outcome.flow.fits inLoop = true := by
  induction turns generalizing value with
  | zero => exact Meets.throw fun _ _ => rfl
  | succ turns ih =>
      refine placid_bind h fun outcome _ => ?_
      cases outcome with
      | none => exact placid_pure rfl
      | some outcome =>
          obtain ⟨given, flow⟩ := outcome
          cases flow with
          | normal => exact ih _
          | breaking => exact placid_pure rfl
          | continuing => exact ih _
          | returning => exact placid_pure rfl

end Execution

namespace Statement

open Execution

variable {policy : Policy} {activate : Activation} {inCall : Bool}

theorem placid_value (hActivate : Activation.Placid activate) (e : Expr) :
    Placid inCall (reading fun t => e.evaluate policy activate t) fun _ => True :=
  placid_reading fun _ ht => e.placid_evaluate hActivate ht

/-- A value may be left out. -/
theorem placid_optional (hActivate : Activation.Placid activate) (e : Option Expr) :
    Placid inCall (execute.optional policy activate e) fun _ => True := by
  cases e with
  | none => exact placid_pure trivial
  | some e => exact placid_bind (placid_value hActivate e) fun _ _ => placid_pure trivial

/-- An expression by itself goes on normally. -/
theorem placid_perform (hActivate : Activation.Placid activate) (inLoop : Bool) (e : Expr) :
    Placid inCall (e.perform policy activate) fun outcome => outcome.flow.fits inLoop = true := by
  unfold Expr.perform
  split
  · next x right =>
      have hTarget (t : Table) (_ : t.WellPlaced) : Attempt.Placid (Evaluation.ofExcept
          (Expr.checkTarget t .undeclaredVariable (.name x))) :=
        Evaluation.placid_ofExcept (Expr.checkTarget_ordinary t .undeclaredVariable (.name x))
      refine placid_bind (placid_reading hTarget) fun _ _ => ?_
      refine placid_bind (placid_value hActivate right) fun value _ => ?_
      refine placid_bind (placid_updating (fun _ _ => Table.store_ready) fun t => ?_) fun _ _ => ?_
      · exact t.assign_ordinary x value
      · exact placid_pure rfl
  · exact placid_bind (placid_value hActivate _) fun _ _ => placid_pure rfl

mutual

/-- The induction is on the statement. What it may do to the flow depends on
whether a loop encloses it, and its table knows whether a call does. -/
theorem placid_execute (hActivate : Activation.Placid activate) (inLoop : Bool) (s : Statement)
    (hs : s.wellPlaced inLoop inCall = true) :
    Placid inCall (s.execute policy activate) fun outcome => outcome.flow.fits inLoop = true := by
  match s with
  | expression e => exact placid_perform hActivate inLoop e
  | block body => exact placid_inScope (placid_executeAll hActivate inLoop body hs none) _
  | ifThen test yes =>
      refine placid_bind (placid_value hActivate test) fun truth _ => ?_
      split
      · exact placid_inScope (placid_execute hActivate inLoop yes hs) _
      · exact placid_pure rfl
  | ifElse test yes no =>
      obtain ⟨hYes, hNo⟩ := Bool.and_eq_true_iff.mp hs
      refine placid_bind (placid_value hActivate test) fun truth _ => ?_
      split
      · exact placid_inScope (placid_execute hActivate inLoop yes hYes) _
      · exact placid_inScope (placid_execute hActivate inLoop no hNo) _
  | whileLoop test body =>
      have hBody := placid_inScope (placid_execute hActivate true body hs) body.shadows
      exact placid_loop (placid_turn policy (placid_value hActivate test) hBody) inLoop _ none
  | breakLoop => exact placid_pure hs
  | continueLoop => exact placid_pure hs
  | returnValue e =>
      refine placid_bind placid_get fun m hm => ?_
      split
      · next hDepth => exact absurd hDepth (hm.called hs)
      · exact placid_bind (placid_optional hActivate e) fun _ _ => placid_pure rfl
  | endRun e =>
      refine placid_bind (placid_optional hActivate e) fun value _ => ?_
      refine placid_bind (Q := fun _ => True) (fun _ hm => ⟨hm, trivial⟩) fun _ _ => ?_
      exact placid_pure rfl
  | letVar name init =>
      refine placid_bind (placid_optional hActivate init) fun value _ => ?_
      refine placid_bind (placid_updating (fun _ _ => Table.store_ready) fun t => ?_) fun _ _ => ?_
      · exact t.assign_ordinary name _
      · exact placid_pure rfl
  | constVar name init =>
      refine placid_bind (placid_value hActivate init) fun value _ => ?_
      refine placid_bind (placid_updating (fun _ _ => Table.declareConstant_ready) fun t => ?_)
        fun _ _ => ?_
      · exact t.declareConstant_ordinary name value
      · exact placid_pure rfl
  | define kind name params body =>
      refine placid_bind (placid_updating (fun _ _ ht => Table.declare_ready ht hs) fun t => ?_)
        fun _ _ => ?_
      · exact t.declare_ordinary kind _
      · exact placid_pure rfl
  | call name args =>
      refine placid_bind placid_get fun m hm => ?_
      cases hProcedure : m.table.procedures[name]? with
      | none =>
          exact placid_bind (placid_value hActivate (.call name args)) fun _ _ => placid_pure rfl
      | some procedure =>
          have hPlaced := hm.wellPlaced.procedures name procedure hProcedure
          refine placid_bind (placid_reading fun t ht => Expr.placid_evaluateAll hActivate ht args)
            fun values _ => ?_
          refine placid_bind (placid_reading fun t ht => hActivate procedure values t hPlaced ht)
            fun result _ => ?_
          exact placid_bind (placid_merging result.1 _) fun _ _ => placid_pure rfl

/-- The flow of a list is that of the statement at which it stops. -/
theorem placid_executeAll (hActivate : Activation.Placid activate) (inLoop : Bool)
    (body : List Statement) (hBody : wellPlacedAll inLoop inCall body = true)
    (value : Option Float) :
    Placid inCall (executeAll policy activate body value)
      fun outcome => outcome.flow.fits inLoop = true := by
  match body with
  | [] => exact placid_pure rfl
  | s :: rest =>
      obtain ⟨hFirst, hRest⟩ := Bool.and_eq_true_iff.mp hBody
      refine placid_bind (placid_execute hActivate inLoop s hFirst) fun outcome hFlow => ?_
      refine placid_bind placid_halted fun ended _ => ?_
      split
      · exact placid_pure hFlow
      · exact placid_executeAll hActivate inLoop rest hRest _

end

end Statement

namespace Subroutine

/-- A body that runs on a ready table hands on what its statements promise. -/
theorem placid_runBody {inCall : Bool} {scope : Table} (hScope : scope.Ready inCall)
    {body : Execution Outcome} {post : Outcome → Prop} (h : Execution.Placid inCall body post) :
    Meets (fun _ => True) (activate.runBody scope body) (fun result _ => True ∧ post result.1)
      fun e _ => e.isMisplaced = false := by
  intro run _
  have hBody := h ⟨scope, run⟩ hScope
  rw [runBody_eq_handedBack]
  rcases hRun : runOn body ⟨scope, run⟩ with ⟨e | outcome, m⟩
  · rw [hRun] at hBody
    exact hBody
  · rw [hRun] at hBody
    exact ⟨trivial, hBody.2⟩

/-- The induction is on how deep calls may be nested. A body lies in no loop, so
its flow is never that of a `break` or a `continue`. -/
theorem placid_activate (policy : Policy) (depth : Nat) :
    Activation.Placid (Subroutine.activate policy depth) := by
  induction depth with
  | zero => exact fun s args t _ _ => placid_throw rfl
  | succ depth ih =>
      intro s args t hs ht
      unfold Subroutine.activate
      split
      · exact placid_throw rfl
      · have hEntered : t.enterCall.Ready true := ⟨ht.congr rfl rfl, fun _ => Nat.succ_ne_zero _⟩
        have hOrdinary := Table.assignAll_ordinary t.enterCall (s.params.zip args)
        refine Meets.bind (Evaluation.meets_ofExcept hOrdinary) fun scope =>
          Meets.fact fun hScope => ?_
        have hReady := Table.assignAll_ready hEntered hScope
        refine Meets.bind
          (placid_runBody hReady (Statement.placid_execute ih false (.block s.body) hs))
          fun result => Meets.fact fun hFlow => ?_
        obtain ⟨⟨value, flow⟩, final⟩ := result
        cases flow with
        | normal => exact placid_pure _
        | breaking => cases hFlow
        | continuing => cases hFlow
        | returning => exact placid_pure _

end Subroutine

theorem Policy.placid_activation (policy : Policy) : Activation.Placid policy.activation :=
  Subroutine.placid_activate policy policy.depth

/-- A statement of a program lies in no loop, so nothing is left for the program
to complain about. -/
theorem Program.placid_execute {inCall : Bool} (policy : Policy) (p : Program)
    (hp : Statement.wellPlacedAll false inCall p = true) (value : Option Float) :
    Execution.Placid inCall (p.execute policy value) fun _ => True := by
  induction p generalizing value with
  | nil => exact Execution.placid_pure trivial
  | cons s rest ih =>
      obtain ⟨hFirst, hRest⟩ := Bool.and_eq_true_iff.mp hp
      refine Execution.placid_bind
        (Statement.placid_execute policy.placid_activation false s hFirst) fun outcome hFlow => ?_
      refine Execution.placid_bind Execution.placid_get fun m _ => ?_
      obtain ⟨given, flow⟩ := outcome
      cases m.run.exit with
      | some value => exact Execution.placid_pure trivial
      | none =>
          cases flow with
          | normal => exact ih hRest given
          | breaking => cases hFlow
          | continuing => cases hFlow
          | returning => exact ih hRest given

/-- A well placed program never complains about a misplaced `break`, `continue`
or `return`, on any table of well placed subroutines and under any conditions,
and neither does an expression that calls such subroutines. -/
theorem control_flow_sound (policy : Policy) (p : Program) (m : Machine)
    (hProgram : p.wellPlaced = true) (hTable : m.table.WellPlaced) :
    (∀ f m', p.run policy m = (.error f, m') → f.isMisplaced = false) ∧
    (∀ (e : Expr) f run,
      (e.evaluate policy policy.activation m.table).run m.run = (.error f, run) →
        f.isMisplaced = false) := by
  constructor
  · intro f m' hRun
    have hReady : m.table.Ready false := ⟨hTable, fun h => nomatch h⟩
    exact (p.placid_execute policy hProgram none).error hReady hRun
  · intro e f run hRun
    exact (e.placid_evaluate policy.placid_activation hTable).error trivial hRun

/-- Declares `odd(x)`, which counts `x` down in a loop that it leaves in every
way there is, and calls it from a loop of its own. -/
def diverting : Program :=
  [.define .function "odd" ["x"]
    [.whileLoop (.name "x") (.block
       [.expression (.binary .assign (.name "x") (.binary .sub (.name "x") (.number 1 "1"))),
        .ifThen (.binary .mod (.name "x") (.number 2 "2")) .continueLoop,
        .ifThen (.binary .lt (.name "x") (.number 2 "2")) .breakLoop]),
     .returnValue (some (.binary .eq (.name "x") (.number 0 "0")))],
   .whileLoop (.call "odd" [.number 3 "3"]) .breakLoop,
   .expression (.call "odd" [.number 3 "3"])]

/-- The program runs to its end. The same `break` outside the loop is refused,
and the program that has it there is not well placed. -/
theorem control_flow_sound_diverting :
    let policy := Policy.usual none fun _ => 0.5
    let start : Machine := ⟨Table.empty, {}⟩
    diverting.wellPlaced = true ∧ start.table.WellPlaced ∧
    (diverting.run policy start).1 = .ok (some 1) ∧
    (∀ f m', diverting.run policy start = (.error f, m') → f.isMisplaced = false) ∧
    Program.wellPlaced [.breakLoop] = false ∧
    (Program.run policy [.breakLoop] start).1 = .error (.flow .breakOutsideLoop) := by
  intro policy start
  have hPlaced : diverting.wellPlaced = true := by decide
  refine ⟨hPlaced, Table.wellPlaced_empty, by decide +kernel, ?_, by decide, by decide +kernel⟩
  exact (control_flow_sound policy diverting start hPlaced Table.wellPlaced_empty).1

end Reckoner
