import Reckoner.Proofs.Taxonomy
import Mathlib.Tactic.Common

/-! What is read is spelled. In an expression or a program that was read from
tokens, every number has the value that its text spells; and so it is in the
subroutines that tables have stored, if nothing else was ever carried out. -/
namespace Reckoner

open Attempt

/-- Whether a number has the value that its text spells. Nothing is asked of
anything else. -/
def Expr.IsSpelled : Expr → Prop
  | number value text => Literal.value? text = some value
  | _ => True

/-- All numbers among the expressions have the values that their texts spell. -/
def Spelled (es : List Expr) : Prop := ∀ e ∈ es, e.IsSpelled

section Parts

variable {op : Operator} {e left right : Expr} {callee : String} {args : List Expr}

theorem spelled_append {es fs : List Expr} : Spelled (es ++ fs) ↔ Spelled es ∧ Spelled fs :=
  List.forall_mem_append

theorem spelled_name (x : String) : Spelled (Expr.name x).parts := by
  simp [Spelled, Expr.parts, Expr.IsSpelled]

theorem spelled_unary : Spelled (Expr.unary op e).parts ↔ Spelled e.parts := by
  simp [Spelled, Expr.parts, Expr.IsSpelled]

/-- An operation has its own node, which is no number, and the parts of its
operands. -/
theorem spelled_binary : Spelled (Expr.binary op left right).parts ↔
    Spelled left.parts ∧ Spelled right.parts := by
  rw [← spelled_append]
  simp [Spelled, Expr.parts, Expr.IsSpelled]

/-- The callee of a call is a name and spells no number. -/
theorem spelled_call : Spelled (Expr.call callee args).parts ↔ Spelled (Expr.partsAll args) := by
  simp [Spelled, Expr.parts, Expr.IsSpelled]

end Parts

namespace Reading

/-- Whatever a reader gives has `post`. -/
def Makes {α : Type} (post : α → Prop) : Except Failure α → Prop
  | .ok a => post a
  | .error _ => True

/-- Readers one after another. Of failures nothing is asked, so they pass. -/
theorem Makes.bind {α β : Type} {post : α → Prop} {post' : β → Prop} {r : Except Failure α}
    {f : α → Except Failure β} (hFirst : Makes post r)
    (hRest : ∀ a, post a → Makes post' (f a)) : Makes post' (r >>= f) := by
  cases r with
  | ok a => exact hRest a hFirst
  | error e => trivial

/-- For readers whose result does not matter. -/
theorem Makes.skip {α β : Type} {post : β → Prop} {r : Except Failure α}
    {f : α → Except Failure β} (hRest : ∀ a, Makes post (f a)) : Makes post (r >>= f) := by
  cases r with
  | ok a => exact hRest a
  | error e => trivial

theorem Makes.ok {α : Type} {post : α → Prop} {r : Except Failure α} {a : α} (h : Makes post r)
    (hr : r = .ok a) : post a := by
  rw [hr] at h
  exact h

/-- What a reader takes from the front of the tokens is spelled, given what it is
made of. -/
def Reads {α : Type} (parts : α → List Expr) (r : Except Failure (α × List Token)) : Prop :=
  Makes (fun read => Spelled (parts read.1)) r

/-- Readers that hand tokens on: of what the first one reads, only its parts
matter to the second. -/
theorem Reads.bind {α β : Type} {parts : α → List Expr} {post : β → Prop}
    {r : Except Failure (α × List Token)} {f : α × List Token → Except Failure β}
    (hFirst : Reads parts r) (hRest : ∀ a ts, Spelled (parts a) → Makes post (f (a, ts))) :
    Makes post (r >>= f) :=
  Makes.bind hFirst fun read => hRest read.1 read.2

/-- The one place where numbers come from: the value is computed from the text
that is kept with it. -/
theorem literal_spelled (t : Token) : Makes (fun e => Spelled e.parts) (literal t) := by
  unfold literal
  split
  · next hValue => simpa [Makes, Spelled, Expr.parts, Expr.IsSpelled] using hValue
  · trivial

/-- An assignment that also computes uses its left side twice, but adds no
number. -/
theorem joint_spelled {t : Token} {joint : Joint} (h : joint? t = some joint) {left right : Expr}
    (hLeft : Spelled left.parts) (hRight : Spelled right.parts) :
    Spelled (joint.combine left right).parts := by
  rcases joint?_cases h with ⟨op, b, _, _, _, rfl⟩ | ⟨op, _, _, rfl⟩
  · exact spelled_binary.mpr ⟨hLeft, hRight⟩
  · exact spelled_binary.mpr ⟨hLeft, spelled_binary.mpr ⟨hLeft, hRight⟩⟩

/-- What the readers of expressions make within a budget. -/
structure Spells (fuel : Nat) : Prop where
  expression : ∀ least ts, Reads Expr.parts (Reading.expression fuel least ts)
  extend : ∀ least {left : Expr}, Spelled left.parts → ∀ ts,
    Reads Expr.parts (Reading.extend fuel least left ts)
  operand : ∀ ts, Reads Expr.parts (Reading.operand fuel ts)
  arguments : ∀ ts, Reads Expr.partsAll (Reading.arguments fuel ts)
  sequence : ∀ ts, Reads Expr.partsAll (Reading.sequence fuel ts)

namespace Spells

variable {fuel : Nat} (hFuel : Spells fuel) (ts : List Token)

include hFuel

/-- Step for an expression: an operand and its extension. -/
theorem expression_succ (least : Rat) :
    Reads Expr.parts (Reading.expression (fuel + 1) least ts) := by
  rw [Reading.expression]
  exact (hFuel.operand ts).bind fun left rest hLeft => hFuel.extend least hLeft rest

/-- Step for the operators. The tree on the left is carried along and has to be
spelled already. -/
theorem extend_succ (least : Rat) {left : Expr} (hLeft : Spelled left.parts) :
    Reads Expr.parts (Reading.extend (fuel + 1) least left ts) := by
  rw [Reading.extend]
  split
  · next joint hJoint =>
      split
      · refine (hFuel.expression joint.binding.right ts.tail).bind fun right rest hRight => ?_
        exact hFuel.extend least (joint_spelled hJoint hLeft hRight) rest
      · exact hLeft
  · exact hLeft

/-- Step for an operand. Only a number token makes a number. -/
theorem operand_succ : Reads Expr.parts (Reading.operand (fuel + 1) ts) := by
  rw [Reading.operand]
  dsimp only
  split
  · exact (literal_spelled _).bind fun e hNumber => hNumber
  · split
    · exact (hFuel.arguments _).bind fun args rest hArgs => spelled_call.mpr hArgs
    · exact spelled_name _
  · split
    · refine (hFuel.expression 0 ts.tail).bind fun inner rest hInner => ?_
      exact .skip fun _ => hInner
    · split
      · next op power _ =>
          refine (hFuel.expression power ts.tail).bind fun first rest hFirst => ?_
          dsimp only
          split
          · refine (hFuel.expression power rest).bind fun second _ hSecond => ?_
            exact spelled_binary.mpr ⟨hFirst, hSecond⟩
          · exact spelled_unary.mpr hFirst
      · trivial
  · trivial

/-- Step for arguments, none or a sequence. -/
theorem arguments_succ : Reads Expr.partsAll (Reading.arguments (fuel + 1) ts) := by
  rw [Reading.arguments]
  split
  · simp [Reads, Makes, Spelled, Expr.partsAll]
  · exact (hFuel.sequence ts).bind fun args rest hArgs => .skip fun _ => hArgs

theorem sequence_succ : Reads Expr.partsAll (Reading.sequence (fuel + 1) ts) := by
  rw [Reading.sequence]
  refine (hFuel.expression 0 ts).bind fun first rest hFirst => ?_
  dsimp only
  split
  · refine (hFuel.sequence rest.tail).bind fun others _ hOthers => ?_
    exact spelled_append.mpr ⟨hFirst, hOthers⟩
  · simpa [Reads, Makes, Expr.partsAll] using hFirst

end Spells

/-- The induction is on the budget: a reader calls the others with less. -/
theorem spells (fuel : Nat) : Spells fuel := by
  induction fuel with
  | zero =>
      exact ⟨fun _ _ => trivial, fun _ _ _ _ => trivial, fun _ => trivial, fun _ => trivial,
        fun _ => trivial⟩
  | succ fuel ih =>
      exact ⟨fun least ts => ih.expression_succ ts least,
        fun least _ hLeft ts => ih.extend_succ ts least hLeft, ih.operand_succ,
        ih.arguments_succ, ih.sequence_succ⟩

/-- Whole expressions are spelled, as the budget plays no part in what is made. -/
theorem read_spelled (least : Rat) (ts : List Token) : Reads Expr.parts (Expr.read least ts) :=
  (spells (budget ts)).expression least ts

/-- A value that is left out has no parts. -/
theorem optionalExpression_spelled (ts : List Token) :
    Reads (fun value => value.elim [] Expr.parts) (optionalExpression ts) := by
  unfold optionalExpression
  dsimp only
  split
  · simp [Reads, Makes, Spelled]
  · exact (read_spelled 0 ts).bind fun e rest hValue => hValue

theorem letVar_spelled (ts : List Token) : Reads Statement.parts (letVar ts) := by
  unfold letVar
  refine .skip ?_
  rintro ⟨name, rest⟩
  dsimp only
  split
  · exact (read_spelled 0 rest.tail).bind fun init _ hInit => hInit
  · simp [Makes, Spelled, Statement.parts]

theorem constVar_spelled (ts : List Token) : Reads Statement.parts (constVar ts) := by
  unfold constVar
  refine .skip fun _ => .skip fun rest => ?_
  exact (read_spelled 0 rest).bind fun init _ hInit => hInit

/-- A call statement has the parts of its arguments, as the call has. -/
theorem simple_spelled (ts : List Token) : Reads Statement.parts (simple ts) := by
  unfold simple
  refine (read_spelled 0 ts).bind fun e rest hValue => ?_
  dsimp only
  split
  · exact hValue
  · exact hValue

/-- What the readers of statements make within a budget. -/
structure SpellsStatements (fuel : Nat) : Prop where
  statement : ∀ ts, Reads Statement.parts (Reading.statement fuel ts)
  phrase : ∀ t ts, Reads Statement.parts (Reading.phrase fuel t ts)
  conditional : ∀ ts, Reads Statement.parts (Reading.conditional fuel ts)
  subroutine : ∀ kind ts, Reads Statement.parts (Reading.subroutine fuel kind ts)
  body : ∀ ts, Reads Statement.parts (Reading.body fuel ts)
  block : ∀ ts, Reads Statement.partsAll (Reading.block fuel ts)
  blockRest : ∀ ts, Reads Statement.partsAll (Reading.blockRest fuel ts)

namespace SpellsStatements

variable {fuel : Nat} (hFuel : SpellsStatements fuel) (ts : List Token)

include hFuel

/-- Step for a statement, by its first token. -/
theorem statement_succ : Reads Statement.parts (Reading.statement (fuel + 1) ts) := by
  have hSkip {r : Except Failure (Statement × List Token)}
      (h : Reads Statement.parts r) :
      Reads Statement.parts
        (r >>= fun read => .ok (read.1, skipSemicolons read.2)) :=
    h.bind fun s ts hRead => hRead
  rw [Reading.statement]
  dsimp only
  split
  · trivial
  · exact hSkip (hFuel.phrase _ ts.tail)
  · split
    · exact (hFuel.block ts).bind fun body rest hBody => hSkip hBody
    · exact hSkip (simple_spelled ts)

/-- Step for the keywords. Where no expression follows, there is nothing to
spell. -/
theorem phrase_succ (t : Token) : Reads Statement.parts (Reading.phrase (fuel + 1) t ts) := by
  have hNone : Spelled [] := fun _ h => absurd h List.not_mem_nil
  rw [Reading.phrase]
  split
  · exact hFuel.conditional ts
  · refine (read_spelled 0 ts).bind fun test rest hTest => ?_
    refine (hFuel.body rest).bind fun body _ hBody => ?_
    exact spelled_append.mpr ⟨hTest, hBody⟩
  · exact hNone
  · exact hNone
  · exact (optionalExpression_spelled ts).bind fun value _ hValue => hValue
  · exact (optionalExpression_spelled ts).bind fun value _ hValue => hValue
  · exact letVar_spelled ts
  · exact constVar_spelled ts
  · exact hFuel.subroutine .function ts
  · exact hFuel.subroutine .procedure ts
  · trivial

/-- Step for a conditional: the test and each branch, the second if it is there. -/
theorem conditional_succ : Reads Statement.parts (Reading.conditional (fuel + 1) ts) := by
  rw [Reading.conditional]
  refine (read_spelled 0 ts).bind fun test rest hTest => ?_
  refine (hFuel.body rest).bind fun yes _ hYes => ?_
  have hElse {r : Except Failure (Statement × List Token)}
      (h : Reads Statement.parts r) :
      Reads Statement.parts
        (r >>= fun read => .ok (Statement.ifElse test yes read.1, read.2)) :=
    h.bind fun no ts hNo => spelled_append.mpr ⟨hTest, spelled_append.mpr ⟨hYes, hNo⟩⟩
  dsimp only
  split
  · split
    · exact hElse (hFuel.conditional _)
    · exact hElse (hFuel.body _)
  · exact spelled_append.mpr ⟨hTest, hYes⟩

/-- Step for a subroutine, whose parts are those of its block. -/
theorem subroutine_succ (kind : Subroutine.Kind) :
    Reads Statement.parts (Reading.subroutine (fuel + 1) kind ts) := by
  rw [Reading.subroutine]
  refine .skip ?_
  rintro ⟨⟨name, params⟩, rest⟩
  exact (hFuel.block rest).bind fun body _ hBody => hBody

theorem body_succ : Reads Statement.parts (Reading.body (fuel + 1) ts) := by
  rw [Reading.body]
  dsimp only
  split
  · exact (hFuel.block _).bind fun body _ hBody => hBody
  · exact hFuel.statement _

/-- Step for a block, which is its brace and the rest. -/
theorem block_succ : Reads Statement.partsAll (Reading.block (fuel + 1) ts) := by
  rw [Reading.block]
  split
  · exact hFuel.blockRest ts.tail
  · trivial

/-- Step for the rest of a block: one statement and the rest after it. -/
theorem blockRest_succ : Reads Statement.partsAll (Reading.blockRest (fuel + 1) ts) := by
  rw [Reading.blockRest]
  dsimp only
  split
  · exact fun _ h => absurd h List.not_mem_nil
  · split
    · trivial
    · refine (hFuel.statement _).bind fun first rest hFirst => ?_
      refine (hFuel.blockRest rest).bind fun others _ hOthers => ?_
      exact spelled_append.mpr ⟨hFirst, hOthers⟩

end SpellsStatements

/-- The same induction on the budget, for statements. -/
theorem spellsStatements (fuel : Nat) : SpellsStatements fuel := by
  induction fuel with
  | zero =>
      exact ⟨fun _ => trivial, fun _ _ => trivial, fun _ => trivial, fun _ _ => trivial,
        fun _ => trivial, fun _ => trivial, fun _ => trivial⟩
  | succ fuel ih =>
      exact ⟨ih.statement_succ, fun t ts => ih.phrase_succ ts t, ih.conditional_succ,
        fun kind ts => ih.subroutine_succ ts kind, ih.body_succ, ih.block_succ,
        ih.blockRest_succ⟩

/-- Induction over the budget, statement by statement. -/
theorem statements_spelled (fuel : Nat) (ts : List Token) :
    Makes (fun p => Spelled (Statement.partsAll p)) (statements fuel ts) := by
  induction fuel generalizing ts with
  | zero => trivial
  | succ fuel ih =>
      rw [statements]
      split
      · exact fun _ h => absurd h List.not_mem_nil
      · refine ((spellsStatements (budget ts)).statement ts).bind fun first rest hFirst => ?_
        exact (ih rest).bind fun others hOthers => spelled_append.mpr ⟨hFirst, hOthers⟩

end Reading

open Reading

theorem Expr.ofText_spelled {text : String} {e : Expr} (h : Expr.ofText text = .ok e) :
    Spelled e.parts := by
  have hFirst (ts : List Token) : Reads Expr.parts (readFirst 0 ts) := by
    unfold readFirst
    split
    · trivial
    · exact read_spelled 0 ts
  have hTokens : Makes (fun e => Spelled e.parts) (ofText text) := by
    unfold ofText ofTokens
    refine (hFirst _).bind fun e rest hRead => ?_
    dsimp only
    split
    · exact hRead
    · trivial
  exact hTokens.ok h

/-- A program that was read from a text spells all its numbers, those in its
subroutines included. -/
theorem Program.ofText_spelled {text : String} {p : Program} (h : Program.ofText text = .ok p) :
    Spelled (Statement.partsAll p) := by
  have hTokens : Makes (fun p => Spelled (Statement.partsAll p)) (ofText text) := by
    unfold ofText ofTokens
    dsimp only
    split
    · trivial
    · exact statements_spelled _ _
  exact hTokens.ok h

theorem spelled_of_mem {s : Statement} {p : List Statement} (hs : s ∈ p)
    (hp : Spelled (Statement.partsAll p)) : Spelled s.parts := by
  induction p with
  | nil => cases hs
  | cons first rest ih =>
      obtain ⟨hFirst, hRest⟩ := spelled_append.mp hp
      rcases List.mem_cons.mp hs with rfl | hs
      · exact hFirst
      · exact ih hs hRest

/-! Tables on which only what is spelled was ever carried out. -/

namespace Table

/-- The tables that come about when, in all that is carried out and declared,
numbers have the values that their texts spell, as in all that is read. -/
inductive Attainable : Table → Prop where
  | empty : Attainable Table.empty
  | assign {t t' : Table} {name : String} {value : Float} (prior : Attainable t)
      (stored : t.assign name value = .ok t') : Attainable t'
  | declareConstant {t t' : Table} {name : String} {value : Float} (prior : Attainable t)
      (stored : t.declareConstant name value = .ok t') : Attainable t'
  | declare {t t' : Table} {kind : Subroutine.Kind} {s : Subroutine} (prior : Attainable t)
      (spelled : Spelled (Statement.partsAll s.body)) (stored : t.declare kind s = .ok t') :
      Attainable t'
  | enterCall {t : Table} (prior : Attainable t) : Attainable t.enterCall
  | merge {t scope : Table} (shadows : List String) (prior : Attainable t)
      (other : Attainable scope) : Attainable (t.merge scope shadows).2
  | unfreeze {t : Table} (name : String) (prior : Attainable t) : Attainable (t.unfreeze name)
  | clear {t : Table} (prior : Attainable t) : Attainable t.clear
  | run {m : Machine} (policy : Policy) (s : Statement) (spelled : Spelled s.parts)
      (prior : Attainable m.table) : Attainable (s.run policy m).2.table

/-- What a table mentions is allowed if the table obeys. -/
theorem Obeys.mentions {policy : Policy} {R : Regime policy} {t : Table} (h : t.Obeys R)
    {e : Expr} (he : t.Mentions e) : R.allows e := by
  obtain ⟨name, s, hStored | hStored, hPart⟩ := he
  · exact h.functions name s hStored e hPart
  · exact h.procedures name s hStored e hPart

/-- A table that comes about, in which all stored numbers are spelled. -/
structure Faithful (t : Table) : Prop where
  reachable : t.Reachable
  spelled : ∀ e, t.Mentions e → e.IsSpelled

/-- Tables that keep only spelled numbers obey the regime in which only these
are allowed. -/
theorem Faithful.obeys {t : Table} (h : t.Faithful) (policy : Policy) :
    t.Obeys (Regime.explained policy Expr.IsSpelled) := obeys_explained policy h.reachable h.spelled

/-- Tables under the regime that allows only spelled numbers hold no others. -/
theorem Obeys.faithful {policy : Policy} {t : Table}
    (h : t.Obeys (Regime.explained policy Expr.IsSpelled)) : t.Faithful :=
  ⟨h.reachable, fun _ he => h.mentions he⟩

/-- The induction is over the ways in which tables come about. A run keeps the
regime, and all other operations keep the subroutines or add one that is
spelled. -/
theorem Attainable.faithful {t : Table} (h : t.Attainable) : t.Faithful := by
  -- A regime is one for certain conditions, but where nothing runs any will do.
  let policy := Policy.usual none fun _ => 0.0
  have hNothing {t : Table} (hFunctions : t.functions = ∅) (hProcedures : t.procedures = ∅)
      (e : Expr) (he : t.Mentions e) : e.IsSpelled := by
    obtain ⟨name, s, hStored | hStored, _⟩ := he
    · simp [hFunctions] at hStored
    · simp [hProcedures] at hStored
  induction h with
  | empty => exact ⟨.empty, hNothing rfl rfl⟩
  | assign _ stored ih => exact ((ih.obeys policy).assign trivial stored).faithful
  | declareConstant _ stored ih =>
      exact ((ih.obeys policy).declareConstant trivial stored).faithful
  | declare _ spelled stored ih => exact ((ih.obeys policy).declare spelled stored).faithful
  | enterCall _ ih => exact (ih.obeys policy).enterCall.faithful
  | merge shadows _ _ ih hScope =>
      exact ((ih.obeys policy).merge (hScope.obeys policy) shadows).faithful
  | @unfreeze t name _ ih =>
      have hStored : (t.unfreeze name).functions = t.functions ∧
          (t.unfreeze name).procedures = t.procedures := by
        unfold Table.unfreeze
        split
        · exact ⟨rfl, rfl⟩
        · exact ⟨rfl, rfl⟩
      refine ⟨.unfreeze name ih.reachable, fun e he => ih.spelled e ?_⟩
      rwa [Mentions, hStored.1, hStored.2] at he
  | clear _ ih => exact ⟨.clear ih.reachable, hNothing rfl rfl⟩
  | @run m policy s spelled _ ih =>
      have hMachine : m.Obeys (Regime.explained policy Expr.IsSpelled) 0 :=
        ⟨ih.obeys policy, Nat.zero_le _, fun _ _ _ _ => trivial⟩
      have hRun := Statement.obeys_execute (Subroutine.obeys_activate
        (Regime.explained policy Expr.IsSpelled) policy.depth) s spelled 0
      exact ((hRun.weaken (fun _ h => h) (fun _ _ h => h.1.table) (fun _ _ h => h.2)).state
        hMachine).faithful

end Table

/-- What texts make of a table that comes about in this way comes about in this
way, too. -/
theorem Table.Attainable.execute {m : Machine} (h : m.table.Attainable) (policy : Policy)
    (text : String) : (Reckoner.execute policy text m).2.table.Attainable := by
  unfold Reckoner.execute
  cases hText : Program.ofText text with
  | error e => exact h
  | ok p =>
      refine (p.execute_keeps policy (fun s hs m hm => ?_) none).state h
      exact .run policy s (spelled_of_mem hs (Program.ofText_spelled hText)) hm

end Reckoner
