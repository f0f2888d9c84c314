import Reckoner.Proofs.Reachable

/-! Two runs side by side. From machines that are related in some way, two
computations come to machines so related, and to the same value or the same
failure. How the tables are related and how the runs are related is left open: it
is enough that the language's own operations keep both. -/
namespace Reckoner

/-- Two results that are related, or one and the same failure. -/
inductive Agree {α β : Type} (rel : α → β → Prop) : Except Failure α → Except Failure β → Prop where
  | ok {a : α} {b : β} (related : rel a b) : Agree rel (.ok a) (.ok b)
  | error (e : Failure) : Agree rel (.error e) (.error e)

namespace Agree

/-- Results that agree go on alike, if what follows agrees on related values. -/
theorem bind {α α' β β' : Type} {rel : α → α' → Prop} {rel' : β → β' → Prop}
    {r : Except Failure α} {r' : Except Failure α'} {f : α → Except Failure β}
    {f' : α' → Except Failure β'} (hFirst : Agree rel r r')
    (hRest : ∀ a a', rel a a' → Agree rel' (f a) (f' a')) : Agree rel' (r >>= f) (r' >>= f') := by
  cases hFirst with
  | ok related => exact hRest _ _ related
  | error e => exact .error e

/-- A weaker relation agrees more often. -/
theorem mono {α β : Type} {rel rel' : α → β → Prop} {r : Except Failure α} {r' : Except Failure β}
    (h : Agree rel r r') (hRel : ∀ a b, rel a b → rel' a b) : Agree rel' r r' := by
  cases h with
  | ok related => exact .ok (hRel _ _ related)
  | error e => exact .error e

theorem refl {α : Type} (r : Except Failure α) : Agree Eq r r := by
  cases r with
  | ok a => exact .ok rfl
  | error e => exact .error e

/-- To agree up to equality is to be the same result. -/
theorem eq {α : Type} {r r' : Except Failure α} (h : Agree Eq r r') : r = r' := by
  cases h with
  | ok related => rw [related]
  | error e => rfl

end Agree

namespace Attempt

variable {σ α α' β β' : Type} {S : σ → σ → Prop}

/-- From related states, two computations come to related states, and to related
values or to the same failure. -/
def Coupled (S : σ → σ → Prop) (rel : α → α' → Prop) (x : Attempt σ α) (y : Attempt σ α') : Prop :=
  ∀ s s', S s s' → Agree rel (runOn x s).1 (runOn y s').1 ∧ S (runOn x s).2 (runOn y s').2

namespace Coupled

/-- Related values, and nothing done on either side. -/
theorem pure {rel : α → α' → Prop} {a : α} {b : α'} (h : rel a b) :
    Coupled S rel (Pure.pure a : Attempt σ α) (Pure.pure b : Attempt σ α') :=
  fun _ _ hs => ⟨.ok h, hs⟩

theorem throw {rel : α → α' → Prop} (e : Failure) :
    Coupled S rel (MonadExcept.throw e : Attempt σ α) (MonadExcept.throw e : Attempt σ α') :=
  fun _ _ hs => ⟨.error e, hs⟩

/-- Coupled computations compose. If the first ones fail, they fail alike, and
neither of the second ones starts. -/
theorem bind {rel : α → α' → Prop} {rel' : β → β' → Prop} {x : Attempt σ α} {y : Attempt σ α'}
    {f : α → Attempt σ β} {g : α' → Attempt σ β'} (hFirst : Coupled S rel x y)
    (hRest : ∀ a b, rel a b → Coupled S rel' (f a) (g b)) :
    Coupled S rel' (x >>= f) (y >>= g) := by
  intro s s' hs
  obtain ⟨hAgree, hState⟩ := hFirst s s' hs
  rw [runOn_bind, runOn_bind]
  rcases hx : runOn x s with ⟨r, after⟩
  rcases hy : runOn y s' with ⟨r', after'⟩
  rw [hx, hy] at hAgree hState
  cases hAgree with
  | ok related => exact hRest _ _ related after after' hState
  | error e => exact ⟨.error e, hState⟩

/-- The same value on both sides may be used as one. -/
theorem bindSame {rel : β → β' → Prop} {x y : Attempt σ α} {f : α → Attempt σ β}
    {g : α → Attempt σ β'} (hFirst : Coupled S Eq x y) (hRest : ∀ a, Coupled S rel (f a) (g a)) :
    Coupled S rel (x >>= f) (y >>= g) := by
  refine hFirst.bind fun a b hSame => ?_
  subst hSame
  exact hRest a

/-- From equal states, the results are equal too. -/
theorem eq {x y : Attempt σ α} (h : Coupled Eq Eq x y) (s : σ) : runOn x s = runOn y s :=
  Prod.ext (h s s rfl).1.eq (h s s rfl).2

end Coupled

end Attempt

open Attempt

/-- What a relation between two runs has to keep. Only under a limit do the steps
make a difference. -/
structure Run.Congruence (policy : Policy) (Q : Run → Run → Prop) : Prop where
  exit : ∀ {r r'}, Q r r' → r'.exit = r.exit
  drawn : ∀ {r r'}, Q r r' → r'.drawn = r.drawn
  steps : ∀ {r r'}, Q r r' → policy.limit.isSome = true → r'.steps = r.steps
  ending : ∀ {r r'} (value : Option Float), Q r r' →
    Q { r with exit := some value } { r' with exit := some value }
  drawing : ∀ {r r'}, Q r r' →
    Q { r with drawn := r.drawn + 1 } { r' with drawn := r'.drawn + 1 }
  counting : ∀ {r r'}, Q r r' →
    Q { r with steps := r.steps + 1 } { r' with steps := r'.steps + 1 }

/-- Equal runs are the finest case, in which steps are compared even without a
limit. -/
theorem Run.congruence_eq (policy : Policy) : Run.Congruence policy Eq where
  exit h := congrArg Run.exit h.symm
  drawn h := congrArg Run.drawn h.symm
  steps h _ := congrArg Run.steps h.symm
  ending value h := congrArg (fun run : Run => { run with exit := some value }) h
  drawing h := congrArg (fun run : Run => { run with drawn := run.drawn + 1 }) h
  counting h := congrArg (fun run : Run => { run with steps := run.steps + 1 }) h

/-- What a relation between two tables has to keep for scopes to be left. -/
structure Table.Congruence (R : Table → Table → Prop) : Prop where
  sound : ∀ {t t'}, R t t' → t.Sound
  sound' : ∀ {t t'}, R t t' → t'.Sound
  merge : ∀ {t t' scope scope'} (shadows : List String), R t t' → R scope scope' →
    R (t.merge scope shadows).2 (t'.merge scope' shadows).2

/-- Machines whose tables and whose runs are related. -/
structure Machine.Related (R : Table → Table → Prop) (Q : Run → Run → Prop) (m m' : Machine) :
    Prop where
  table : R m.table m'.table
  run : Q m.run m'.run

variable {R : Table → Table → Prop} {Q : Run → Run → Prop} {policy : Policy}

namespace Evaluation

variable {α β : Type}

/-- Results that are at hand do not touch the run. -/
theorem coupled_ofExcept {rel : α → β → Prop} {r : Except Failure α} {r' : Except Failure β}
    (h : Agree rel r r') : Coupled Q rel (ofExcept r) (ofExcept r') := by
  cases h with
  | ok related => exact .pure related
  | error e => exact .throw e

theorem coupled_same (r : Except Failure α) : Coupled Q Eq (ofExcept r) (ofExcept r) :=
  coupled_ofExcept (.refl r)

/-- Both sides have drawn equally often, so they draw the same number. -/
theorem coupled_draw (hQ : Run.Congruence policy Q) :
    Coupled Q Eq (draw policy) (draw policy) := by
  intro run run' hRun
  refine ⟨?_, hQ.drawing hRun⟩
  change Agree Eq (.ok (policy.draws run.drawn)) (.ok (policy.draws run'.drawn))
  rw [hQ.drawn hRun]
  exact .ok rfl

end Evaluation

namespace Builtin

/-- A function sees its arguments and the source of random numbers, and both are
the same on both sides. -/
theorem coupled_apply (hQ : Run.Congruence policy Q) (b : Builtin) (args : List Float) :
    Coupled Q Eq (b.apply policy args) (b.apply policy args) := by
  unfold apply
  split
  · exact Evaluation.coupled_draw hQ
  · exact (Evaluation.coupled_draw hQ).bindSame fun _ => .pure rfl
  · split
    · exact .throw _
    · exact (Evaluation.coupled_draw hQ).bindSame fun _ => .pure rfl
  · exact Evaluation.coupled_same _
  · exact .throw _
  · exact .pure rfl
  · exact .pure rfl
  · exact Evaluation.coupled_same _
  · exact .throw _

theorem coupled_call (hQ : Run.Congruence policy Q) (b : Builtin) (args : List Float) :
    Coupled Q Eq (b.call policy args) (b.call policy args) := by
  unfold call
  split
  · exact Coupled.bindSame (.throw _) fun _ =>
      (b.coupled_apply hQ args).bindSame fun _ => .pure rfl
  · exact (b.coupled_apply hQ args).bindSame fun _ => .pure rfl

end Builtin

namespace Execution

variable {α α' : Type}

/-- Related runs have ended both or neither. -/
theorem coupled_halted (hQ : Run.Congruence policy Q) :
    Coupled (Machine.Related R Q) Eq halted halted := by
  intro m m' hm
  refine ⟨?_, hm⟩
  change Agree Eq (.ok m.run.exit.isSome) (.ok m'.run.exit.isSome)
  rw [hQ.exit hm.run]
  exact .ok rfl

theorem coupled_get :
    Coupled (Machine.Related R Q) (Machine.Related R Q) (get : Execution Machine) get :=
  fun _ _ hm => ⟨.ok hm, hm⟩

/-- Evaluations see the tables, so they have to be coupled on each pair of them
that is related. -/
theorem coupled_reading {rel : α → α' → Prop} {f : Table → Evaluation α}
    {g : Table → Evaluation α'} (h : ∀ t t', R t t' → Coupled Q rel (f t) (g t')) :
    Coupled (Machine.Related R Q) rel (reading f) (reading g) := by
  intro m m' hm
  obtain ⟨hAgree, hRun⟩ := h m.table m'.table hm.table m.run m'.run hm.run
  exact ⟨hAgree, hm.table, hRun⟩

/-- An update is refused on both sides or on neither, with the same error. -/
theorem coupled_updating {f : Table → Except Failure Table}
    (h : ∀ t t', R t t' → Agree R (f t) (f t')) :
    Coupled (Machine.Related R Q) Eq (updating f) (updating f) := by
  intro m m' hm
  have hTables := h m.table m'.table hm.table
  rw [runOn_updating, runOn_updating]
  revert hTables
  generalize f m.table = r
  generalize f m'.table = r'
  rintro (related | e)
  · exact ⟨.ok rfl, related, hm.run⟩
  · exact ⟨.error e, hm⟩

/-- What happens to tables at the end of a scope is left to the congruence.
Sound tables make the merge succeed on both sides. -/
theorem coupled_merging (hR : Table.Congruence R) {scope scope' : Table} (hScope : R scope scope')
    (shadows : List String) :
    Coupled (Machine.Related R Q) Eq (merging scope shadows) (merging scope' shadows) := by
  intro m m' hm
  rw [runOn_merging, runOn_merging, Table.merge_isOk (hR.sound hm.table),
    Table.merge_isOk (hR.sound' hm.table)]
  exact ⟨.ok rfl, hR.merge shadows hm.table hScope, hm.run⟩

/-- The bodies run on related machines, and what they leave is merged into
related tables. -/
theorem coupled_inScope (hR : Table.Congruence R) {rel : α → α' → Prop} {body : Execution α}
    {body' : Execution α'} (h : Coupled (Machine.Related R Q) rel body body')
    (shadows : List String) :
    Coupled (Machine.Related R Q) rel (inScope shadows body) (inScope shadows body') := by
  intro m m' hm
  obtain ⟨hAgree, hInner⟩ := h m m' hm
  rw [runOn_inScope, runOn_inScope]
  rcases hBody : runOn body m with ⟨r, inner⟩
  rcases hBody' : runOn body' m' with ⟨r', inner'⟩
  rw [hBody, hBody'] at hAgree hInner
  cases hAgree with
  | ok related =>
      simp only [leaving, Table.merge_isOk (hR.sound hm.table),
        Table.merge_isOk (hR.sound' hm.table)]
      exact ⟨.ok related, hR.merge shadows hm.table hInner.table, hInner.run⟩
  | error e => exact ⟨.error e, hm.table, hInner.run⟩

/-- Counting is the one place where steps are compared with something, and only
under a limit. -/
theorem coupled_tick (hQ : Run.Congruence policy Q) :
    Coupled (Machine.Related R Q) Eq (tick policy) (tick policy) := by
  intro m m' hm
  have hCounted : Machine.Related R Q (counted m) (counted m') :=
    ⟨hm.table, hQ.counting hm.run⟩
  have hSteps := hQ.steps hm.run
  rw [runOn_tick, runOn_tick]
  cases hLimit : policy.limit with
  | none => exact ⟨.ok rfl, hCounted⟩
  | some limit =>
      rw [hLimit] at hSteps
      rw [hSteps rfl]
      dsimp only
      split
      · exact ⟨.error _, hCounted⟩
      · exact ⟨.ok rfl, hCounted⟩

/-- A turn asks whether the run has ended, tests, counts and carries out the
body, and each of these is coupled. -/
theorem coupled_turn (hQ : Run.Congruence policy Q) {test test' : Execution Float}
    {body body' : Execution Outcome} (hTest : Coupled (Machine.Related R Q) Eq test test')
    (hBody : Coupled (Machine.Related R Q) Eq body body') :
    Coupled (Machine.Related R Q) Eq (turn policy test body) (turn policy test' body') := by
  refine (coupled_halted hQ).bindSame fun ended => ?_
  split
  · exact .pure rfl
  · refine hTest.bindSame fun truth => ?_
    split
    · refine (coupled_tick hQ).bindSame fun _ => ?_
      exact hBody.bindSame fun outcome => .pure rfl
    · exact .pure rfl

/-- Induction over the turns that are left, since a turn gives the same on both
sides: an end, a jump or another turn. -/
theorem coupled_loop {turn turn' : Execution (Option Outcome)}
    (hTurn : Coupled (Machine.Related R Q) Eq turn turn') (turns : Nat) (value : Option Float) :
    Coupled (Machine.Related R Q) Eq (loop turn turns value) (loop turn' turns value) := by
  induction turns generalizing value with
  | zero => exact .throw _
  | succ turns ih =>
      refine hTurn.bindSame fun outcome => ?_
      cases outcome with
      | none => exact .pure rfl
      | some outcome =>
          obtain ⟨given, flow⟩ := outcome
          cases flow with
          | normal => exact ih _
          | breaking => exact .pure rfl
          | continuing => exact ih _
          | returning => exact .pure rfl

end Execution

/-! Expressions and statements that do not tell related tables apart. -/

/-- An expression that comes to the same on tables that are related. -/
def Expr.Indifferent (R : Table → Table → Prop) (Q : Run → Run → Prop) (policy : Policy)
    (activate : Activation) (e : Expr) : Prop :=
  ∀ t t', R t t' → Coupled Q Eq (e.evaluate policy activate t) (e.evaluate policy activate t')

/-- A statement that comes to the same on machines that are related. -/
def Statement.Indifferent (R : Table → Table → Prop) (Q : Run → Run → Prop) (policy : Policy)
    (activate : Activation) (s : Statement) : Prop :=
  Coupled (Machine.Related R Q) Eq (s.execute policy activate) (s.execute policy activate)

namespace Statement

open Execution

variable {activate : Activation}

/-- A value that may be left out is left out on both sides. -/
theorem coupled_optional {e : Option Expr}
    (h : ∀ given ∈ e, given.Indifferent R Q policy activate) :
    Coupled (Machine.Related R Q) Eq (execute.optional policy activate e)
      (execute.optional policy activate e) := by
  cases e with
  | none => exact .pure rfl
  | some e => exact (coupled_reading (h e rfl)).bindSame fun a => .pure rfl

/-- Only an assignment needs more than the value of the expression. -/
theorem indifferent_expression {e : Expr} (he : e.Indifferent R Q policy activate)
    (hAssign : ∀ x right, e = .binary .assign (.name x) right →
      right.Indifferent R Q policy activate ∧
        ∀ t t', R t t' → t'.contains x = t.contains x ∧
          ∀ a, Agree R (t.assign x a) (t'.assign x a)) :
    (expression e).Indifferent R Q policy activate := by
  unfold Indifferent execute Expr.perform
  split
  · next x right =>
      obtain ⟨hRight, hTables⟩ := hAssign x right rfl
      refine (coupled_reading fun t t' ht => ?_).bindSame fun _ => ?_
      · rw [Expr.checkTarget, Expr.checkTarget, (hTables t t' ht).1]
        exact Evaluation.coupled_same _
      · refine (coupled_reading hRight).bindSame fun a => ?_
        exact (coupled_updating fun t t' ht => (hTables t t' ht).2 a).bindSame fun _ => .pure rfl
  · exact (coupled_reading he).bindSame fun a => .pure rfl

/-- A block is its statements in a scope. -/
theorem indifferent_block (hR : Table.Congruence R) {body : List Statement}
    (hBody : Coupled (Machine.Related R Q) Eq (executeAll policy activate body none)
      (executeAll policy activate body none)) :
    (block body).Indifferent R Q policy activate :=
  coupled_inScope hR hBody _

/-- The test has the same value on both sides, so the branch is taken on both or
on neither. -/
theorem indifferent_ifThen (hR : Table.Congruence R) {test : Expr} {yes : Statement}
    (hTest : test.Indifferent R Q policy activate) (hYes : yes.Indifferent R Q policy activate) :
    (ifThen test yes).Indifferent R Q policy activate := by
  refine (coupled_reading hTest).bindSame fun truth => ?_
  split
  · exact coupled_inScope hR hYes _
  · exact .pure rfl

/-- With two branches, both sides take the same one. -/
theorem indifferent_ifElse (hR : Table.Congruence R) {test : Expr} {yes no : Statement}
    (hTest : test.Indifferent R Q policy activate) (hYes : yes.Indifferent R Q policy activate)
    (hNo : no.Indifferent R Q policy activate) :
    (ifElse test yes no).Indifferent R Q policy activate := by
  refine (coupled_reading hTest).bindSame fun truth => ?_
  split
  · exact coupled_inScope hR hYes _
  · exact coupled_inScope hR hNo _

/-- A loop by its turns, in a scope for each of them. -/
theorem indifferent_whileLoop (hR : Table.Congruence R) (hQ : Run.Congruence policy Q)
    {test : Expr} {body : Statement} (hTest : test.Indifferent R Q policy activate)
    (hBody : body.Indifferent R Q policy activate) :
    (whileLoop test body).Indifferent R Q policy activate :=
  coupled_loop (coupled_turn hQ (coupled_reading hTest) (coupled_inScope hR hBody _)) _ none

/-- Whether `return` is allowed depends on the number of calls under way, so
related tables have to agree on whether there is one. -/
theorem indifferent_returnValue {e : Option Expr}
    (hDepth : ∀ t t', R t t' → (t'.callDepth = 0 ↔ t.callDepth = 0))
    (he : ∀ given ∈ e, given.Indifferent R Q policy activate) :
    (returnValue e).Indifferent R Q policy activate := by
  refine coupled_get.bind fun m m' hm => ?_
  have hSame := hDepth m.table m'.table hm.table
  by_cases hOutside : m.table.callDepth = 0
  · rw [if_pos hOutside, if_pos (hSame.mpr hOutside)]
    exact .throw _
  · rw [if_neg hOutside, if_neg fun h => hOutside (hSame.mp h)]
    exact (coupled_optional he).bindSame fun value => .pure rfl

/-- The value given to `end` becomes the exit of both runs. -/
theorem indifferent_endRun (hQ : Run.Congruence policy Q) {e : Option Expr}
    (he : ∀ given ∈ e, given.Indifferent R Q policy activate) :
    (endRun e).Indifferent R Q policy activate := by
  refine (coupled_optional he).bindSame fun value => ?_
  exact Coupled.bindSame (fun m m' hm => ⟨.ok rfl, hm.table, hQ.ending value hm.run⟩)
    fun _ => .pure rfl

/-- A list of statements, by its first one and by whether the run has ended
then. -/
theorem coupled_executeAll_cons (hQ : Run.Congruence policy Q) {s : Statement}
    {rest : List Statement} (hFirst : s.Indifferent R Q policy activate)
    (hRest : ∀ value, Coupled (Machine.Related R Q) Eq (executeAll policy activate rest value)
      (executeAll policy activate rest value)) (value : Option Float) :
    Coupled (Machine.Related R Q) Eq (executeAll policy activate (s :: rest) value)
      (executeAll policy activate (s :: rest) value) := by
  refine hFirst.bindSame fun outcome => ?_
  refine (coupled_halted hQ).bindSame fun ended => ?_
  split
  · exact .pure rfl
  · exact hRest _

end Statement

namespace Subroutine

/-- Related tables, and the same value. -/
def SameResult (R : Table → Table → Prop) (r r' : Table × Option Float) : Prop :=
  R r.1 r'.1 ∧ r.2 = r'.2

/-- A body that starts on related scopes hands related tables back. -/
theorem coupled_runBody {scope scope' : Table} (hScope : R scope scope') {body : Execution Outcome}
    (h : Coupled (Machine.Related R Q) Eq body body) :
    Coupled Q (fun r r' => r.1 = r'.1 ∧ R r.2 r'.2) (activate.runBody scope body)
      (activate.runBody scope' body) := by
  intro run run' hRun
  obtain ⟨hAgree, hFinal⟩ := h ⟨scope, run⟩ ⟨scope', run'⟩ ⟨hScope, hRun⟩
  rw [runBody_eq_handedBack, runBody_eq_handedBack]
  rcases hBody : runOn body ⟨scope, run⟩ with ⟨r, m⟩
  rcases hBody' : runOn body ⟨scope', run'⟩ with ⟨r', m'⟩
  rw [hBody, hBody'] at hAgree hFinal
  cases hAgree with
  | ok related => exact ⟨.ok ⟨related, hFinal.table⟩, hFinal.run⟩
  | error e => exact ⟨.error e, hFinal.run⟩

/-- Two calls whose parameters are bound alike, and whose body does not tell the
scopes apart. -/
theorem coupled_activate_succ {depth : Nat} {s : Subroutine} {args : List Float} {t t' : Table}
    (hBound : args.length = s.params.length → Agree R (t.enterCall.assignAll (s.params.zip args))
      (t'.enterCall.assignAll (s.params.zip args)))
    (hBody : (Statement.block s.body).Indifferent R Q policy (activate policy depth)) :
    Coupled Q (SameResult R) (activate policy (depth + 1) s args t)
      (activate policy (depth + 1) s args t') := by
  unfold activate
  by_cases hCount : args.length = s.params.length
  · rw [if_neg (not_not_intro hCount), if_neg (not_not_intro hCount)]
    refine (Evaluation.coupled_ofExcept (hBound hCount)).bind fun scope scope' hScope => ?_
    refine (coupled_runBody hScope hBody).bind ?_
    rintro ⟨⟨value, flow⟩, final⟩ ⟨_, final'⟩ ⟨rfl, hFinal⟩
    cases flow with
    | normal => exact .pure ⟨hFinal, rfl⟩
    | breaking => exact .throw _
    | continuing => exact .throw _
    | returning => exact .pure ⟨hFinal, rfl⟩
  · rw [if_pos hCount, if_pos hCount]
    exact .throw _

end Subroutine

/-- A program whose first statement does not tell related machines apart, and
neither does the rest. -/
theorem Program.coupled_execute_cons (hQ : Run.Congruence policy Q) {s : Statement} {rest : Program}
    (hFirst : s.Indifferent R Q policy policy.activation)
    (hRest : ∀ value, Coupled (Machine.Related R Q) Eq (rest.execute policy value)
      (rest.execute policy value)) (value : Option Float) :
    Coupled (Machine.Related R Q) Eq (Program.execute policy (s :: rest) value)
      (Program.execute policy (s :: rest) value) := by
  refine hFirst.bindSame fun outcome => ?_
  refine Execution.coupled_get.bind fun m m' hm => ?_
  rw [hQ.exit hm.run]
  obtain ⟨given, flow⟩ := outcome
  cases m.run.exit with
  | some value => exact .pure rfl
  | none =>
      cases flow with
      | normal => exact hRest given
      | breaking => exact .throw _
      | continuing => exact .throw _
      | returning => exact hRest given

end Reckoner
