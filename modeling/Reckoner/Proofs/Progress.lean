import Reckoner.Program
import Reckoner.Proofs.Grammar

/-! Readers make progress. A reader that succeeds has taken tokens from the
front, never the one that marks the end, and it hands on at most four steps of
its budget for each token that is left. So the budget lasts whatever the tokens
are, and reading ends with a result or with an error at some token. -/
namespace Reckoner

namespace Reading

/-- At least `n` tokens were taken from the front of `ts`, none of them marking
the end, and `rest` is left. -/
def Passed (n : Nat) (ts rest : List Token) : Prop :=
  ∃ used, n ≤ used.length ∧ (∀ t ∈ used, t.isFinish = false) ∧ ts = used ++ rest

namespace Passed

variable {n k : Nat} {ts us rest : List Token}

theorem refl (ts : List Token) : Passed 0 ts ts :=
  ⟨[], Nat.zero_le _, fun _ ht => absurd ht List.not_mem_nil, rfl⟩

/-- Tokens taken one after another add up. -/
theorem trans (first : Passed n ts us) (second : Passed k us rest) : Passed (n + k) ts rest := by
  obtain ⟨former, hFormer, hOpen, rfl⟩ := first
  obtain ⟨latter, hLatter, hOpen', rfl⟩ := second
  refine ⟨former ++ latter, ?_, fun t ht => ?_, (List.append_assoc ..).symm⟩
  · rw [List.length_append]
    omega
  · exact (List.mem_append.mp ht).elim (hOpen t) (hOpen' t)

theorem mono (h : Passed n ts rest) (hLe : k ≤ n) : Passed k ts rest := by
  obtain ⟨used, hUsed, hOpen, hTokens⟩ := h
  exact ⟨used, Nat.le_trans hLe hUsed, hOpen, hTokens⟩

/-- What is left is shorter by the tokens taken. This is what the budgets are
counted with. -/
theorem length_le (h : Passed n ts rest) : rest.length + n ≤ ts.length := by
  obtain ⟨used, hUsed, _, rfl⟩ := h
  rw [List.length_append]
  omega

/-- One token can be taken as long as the end is not reached. -/
theorem tail (h : (peek ts).isFinish = false) : Passed 1 ts ts.tail := by
  cases ts with
  | nil => cases h
  | cons t rest =>
      refine ⟨[t], Nat.le_refl 1, fun u hu => ?_, rfl⟩
      rw [List.mem_singleton.mp hu]
      exact h

/-- A reader that has looked at the kind of a token may take it. -/
theorem tail_of_kind {kind : Token.Kind} (h : (peek ts).kind = kind) (hKind : kind ≠ .finish) :
    Passed 1 ts ts.tail := by
  apply tail
  simpa [Token.isFinish, h] using hKind

/-- A sign that was found is taken. -/
theorem tail_of_operator {text : String} (h : (peek ts).isOperator text = true) :
    Passed 1 ts ts.tail :=
  tail_of_kind (kind_of_isOperator h) (by decide)

theorem tail_of_keyword {text : String} (h : (peek ts).isKeyword text = true) :
    Passed 1 ts ts.tail := by
  simp only [Token.isKeyword, Bool.and_eq_true, beq_iff_eq] at h
  exact tail_of_kind h.1 (by decide)

/-- Semicolons are passed over without a promise of how many there are. -/
theorem skipSemicolons (ts : List Token) : Passed 0 ts (Reading.skipSemicolons ts) := by
  refine ⟨ts.takeWhile (·.isOperator ";"), Nat.zero_le _, fun t ht => ?_,
    List.takeWhile_append_dropWhile.symm⟩
  have hKind := kind_of_isOperator (List.all_eq_true.mp List.all_takeWhile t ht)
  simp [Token.isFinish, hKind]

end Passed

/-- A reader gives something with `post`, or it rejects a token. -/
def Yields {α : Type} (post : α → Prop) : Except Failure α → Prop
  | .ok a => post a
  | .error e => ∃ cause token, e = .parse cause token

namespace Yields

variable {α β : Type}

theorem reject {post : α → Prop} (cause : ParseError.Cause) (token : Token) :
    Yields post (Reading.reject cause token) := ⟨cause, token, rfl⟩

/-- What is known of a result may be weakened; errors stay as they are. -/
theorem imp {post post' : α → Prop} {r : Except Failure α} (h : Yields post r)
    (hPost : ∀ a, post a → post' a) : Yields post' r := by
  cases r with
  | ok a => exact hPost a h
  | error e => exact h

/-- Readers one after another: the second has to behave only on what the first
gives. -/
theorem bind {post : α → Prop} {post' : β → Prop} {r : Except Failure α}
    {f : α → Except Failure β} (hFirst : Yields post r)
    (hRest : ∀ a, post a → Yields post' (f a)) : Yields post' (r >>= f) := by
  cases r with
  | ok a => exact hRest a hFirst
  | error e => exact hFirst

end Yields

/-- A reader takes at least `n` of the tokens, or it rejects one. -/
def Takes {α : Type} (n : Nat) (ts : List Token) (r : Except Failure (α × List Token)) : Prop :=
  Yields (fun (_, rest) => Passed n ts rest) r

namespace Takes

variable {α β : Type} {n k j : Nat} {ts us : List Token}

/-- After a reader that takes tokens, the next one may count on how many remain. -/
theorem bind {post : β → Prop} {r : Except Failure (α × List Token)}
    {f : α × List Token → Except Failure β} (hFirst : Takes n ts r)
    (hRest : ∀ a us, Passed n ts us → us.length + n ≤ ts.length → Yields post (f (a, us))) :
    Yields post (r >>= f) :=
  Yields.bind hFirst fun (a, us) hPassed => hRest a us hPassed hPassed.length_le

/-- Tokens that were taken before a reader count too. -/
theorem after {r : Except Failure (α × List Token)} (hRest : Takes k us r)
    (hPassed : Passed n ts us) (hCount : j ≤ n + k) : Takes j ts r :=
  Yields.imp hRest fun _ hTaken => (hPassed.trans hTaken).mono hCount

end Takes

/-- The parenthesis is taken, or whatever stands there is rejected. -/
theorem closeParenthesis_yields (ts : List Token) : Yields (Passed 1 ts) (closeParenthesis ts) := by
  unfold closeParenthesis
  split
  · next h => exact .tail_of_operator h
  · exact .reject _ _

theorem expectOperator_yields (text : String) (ts : List Token) :
    Yields (Passed 1 ts) (expectOperator text ts) := by
  unfold expectOperator
  split
  · next h => exact .tail_of_operator h
  · exact .reject _ _

/-- One name is taken. -/
theorem expectName_takes (ts : List Token) : Takes 1 ts (expectName ts) := by
  unfold expectName
  split
  · next h => exact .tail_of_kind h (by decide)
  · exact .reject _ _

theorem literal_yields (t : Token) : Yields (fun _ => True) (literal t) := by
  unfold literal
  split
  · trivial
  · exact .reject _ _

/-- The end joins nothing, so an operator between operands may be taken. -/
theorem isFinish_of_joint {t : Token} {joint : Joint} (h : joint? t = some joint) :
    t.isFinish = false := by
  rw [Bool.eq_false_iff]
  intro hFinish
  simp only [Token.isFinish, beq_iff_eq] at hFinish
  simp [joint?, hFinish] at h

/-- What the readers of expressions do when the budget is enough for the tokens. -/
structure Progresses (fuel : Nat) : Prop where
  expression : ∀ {ts : List Token}, 4 * ts.length + 2 ≤ fuel → ∀ least,
    Takes 1 ts (Reading.expression fuel least ts)
  extend : ∀ {ts : List Token}, 4 * ts.length + 1 ≤ fuel → ∀ least left,
    Takes 0 ts (Reading.extend fuel least left ts)
  operand : ∀ {ts : List Token}, 4 * ts.length + 1 ≤ fuel → Takes 1 ts (Reading.operand fuel ts)
  arguments : ∀ {ts : List Token}, 4 * ts.length + 4 ≤ fuel →
    Takes 1 ts (Reading.arguments fuel ts)
  sequence : ∀ {ts : List Token}, 4 * ts.length + 3 ≤ fuel → Takes 1 ts (Reading.sequence fuel ts)

namespace Progresses

variable {fuel : Nat} {ts : List Token}

/-- Step for an expression: the operand takes a token, so four steps more are
there for what extends it. -/
theorem expression_succ (hFuel : Progresses fuel) (hLasts : 4 * ts.length + 2 ≤ fuel + 1)
    (least : Rat) : Takes 1 ts (Reading.expression (fuel + 1) least ts) := by
  rw [Reading.expression]
  refine (hFuel.operand (by omega)).bind fun left us hOperand hLength => ?_
  exact (hFuel.extend (by omega) least left).after hOperand (by omega)

/-- Step for the operators of an expression. Each turn takes the operator and an
operand; with no operator to admit, nothing is taken. -/
theorem extend_succ (hFuel : Progresses fuel) (hLasts : 4 * ts.length + 1 ≤ fuel + 1)
    (least : Rat) (left : Expr) : Takes 0 ts (Reading.extend (fuel + 1) least left ts) := by
  rw [Reading.extend]
  split
  · next joint hJoint =>
      have hSign : Passed 1 ts ts.tail := .tail (isFinish_of_joint hJoint)
      have hTail := hSign.length_le
      split
      · refine (hFuel.expression (by omega) joint.binding.right).bind
          fun right us hRight hLength => ?_
        exact (hFuel.extend (by omega) least _).after (hSign.trans hRight) (by omega)
      · exact .refl ts
  · exact .refl ts

/-- An operator before its operand, from after the operator. -/
theorem operand_prefixed (hFuel : Progresses fuel) (hLasts : 4 * ts.length + 2 ≤ fuel)
    (op : Operator) (power : Rat) :
    Takes 1 ts (do
      let (first, us) ← Reading.expression fuel power ts
      if op = .root ∧ startsOperand (peek us) then do
        let (second, us) ← Reading.expression fuel power us
        .ok (Expr.binary op first second, us)
      else .ok (Expr.unary op first, us)) := by
  refine (hFuel.expression hLasts power).bind fun first us hFirst hLength => ?_
  dsimp only
  split
  · refine (hFuel.expression (by omega) power).bind fun second rest hSecond _ => ?_
    exact (hFirst.trans hSecond).mono (by omega)
  · exact hFirst

/-- Step for an operand, by its first token. -/
theorem operand_succ (hFuel : Progresses fuel) (hLasts : 4 * ts.length + 1 ≤ fuel + 1) :
    Takes 1 ts (Reading.operand (fuel + 1) ts) := by
  rw [Reading.operand]
  dsimp only
  split
  · next hKind =>
      refine (literal_yields _).bind fun e _ => ?_
      exact .tail_of_kind hKind (by decide)
  · next hKind =>
      have hName : Passed 1 ts ts.tail := .tail_of_kind hKind (by decide)
      split
      · next hOpens =>
          have hOpening : Passed 2 ts ts.tail.tail := hName.trans (.tail_of_operator hOpens)
          have hTail := hOpening.length_le
          refine (hFuel.arguments (by omega)).bind fun args us hArguments _ => ?_
          exact (hOpening.trans hArguments).mono (by omega)
      · exact hName
  · next hKind =>
      have hSign : Passed 1 ts ts.tail := .tail_of_kind hKind (by decide)
      have hTail := hSign.length_le
      split
      · refine (hFuel.expression (by omega) 0).bind fun inner us hInner _ => ?_
        refine (closeParenthesis_yields us).bind fun rest hRest => ?_
        exact ((hSign.trans hInner).trans hRest).mono (by omega)
      · split
        · next op power _ =>
            exact (operand_prefixed hFuel (by omega) op power).after hSign (by omega)
        · exact .reject _ _
  · exact .reject _ _

/-- Step for arguments: the closing parenthesis is taken in either case. -/
theorem arguments_succ (hFuel : Progresses fuel) (hLasts : 4 * ts.length + 4 ≤ fuel + 1) :
    Takes 1 ts (Reading.arguments (fuel + 1) ts) := by
  rw [Reading.arguments]
  split
  · next hCloses => exact .tail_of_operator hCloses
  · refine (hFuel.sequence (by omega)).bind fun args us hSequence _ => ?_
    refine (closeParenthesis_yields us).bind fun rest hRest => ?_
    exact (hSequence.trans hRest).mono (by omega)

/-- Step for a sequence: each comma is taken before the next turn. -/
theorem sequence_succ (hFuel : Progresses fuel) (hLasts : 4 * ts.length + 3 ≤ fuel + 1) :
    Takes 1 ts (Reading.sequence (fuel + 1) ts) := by
  rw [Reading.sequence]
  refine (hFuel.expression (by omega) 0).bind fun first us hFirst _ => ?_
  dsimp only
  split
  · next hComma =>
      have hNext : Passed 2 ts us.tail := hFirst.trans (.tail_of_operator hComma)
      have hTail := hNext.length_le
      refine (hFuel.sequence (by omega)).bind fun others rest hOthers _ => ?_
      exact (hNext.trans hOthers).mono (by omega)
  · exact hFirst

end Progresses

/-- The induction is on the budget: a reader calls the others with less. -/
theorem progresses (fuel : Nat) : Progresses fuel := by
  induction fuel with
  | zero => constructor <;> intros <;> omega
  | succ fuel ih =>
      exact ⟨ih.expression_succ, ih.extend_succ, ih.operand_succ, ih.arguments_succ,
        ih.sequence_succ⟩

/-- The budget for a whole expression lasts. -/
theorem read_takes (least : Rat) (ts : List Token) : Takes 1 ts (Expr.read least ts) :=
  (progresses (budget ts)).expression (by unfold budget; omega) least

/-- A value may be left out, and then no token is taken. -/
theorem optionalExpression_takes (ts : List Token) : Takes 0 ts (optionalExpression ts) := by
  unfold optionalExpression
  dsimp only
  split
  · exact .refl ts
  · exact (read_takes 0 ts).bind fun e us hValue _ => hValue.mono (by omega)

theorem letVar_takes (ts : List Token) : Takes 1 ts (letVar ts) := by
  unfold letVar
  refine (expectName_takes ts).bind fun name us hName _ => ?_
  dsimp only
  split
  · next hSign =>
      refine (read_takes 0 us.tail).bind fun init rest hInit _ => ?_
      exact ((hName.trans (.tail_of_operator hSign)).trans hInit).mono (by omega)
  · exact hName

theorem constVar_takes (ts : List Token) : Takes 1 ts (constVar ts) := by
  unfold constVar
  refine (expectName_takes ts).bind fun name us hName _ => ?_
  refine (expectOperator_yields "=" us).bind fun vs hSign => ?_
  refine (read_takes 0 vs).bind fun init rest hInit _ => ?_
  exact ((hName.trans hSign).trans hInit).mono (by omega)

/-- The induction is on the budget. For names one step a token is enough. -/
theorem names_takes {fuel : Nat} {ts : List Token} (hLasts : ts.length + 1 ≤ fuel) :
    Takes 1 ts (names fuel ts) := by
  induction fuel generalizing ts with
  | zero => omega
  | succ fuel ih =>
      rw [names]
      refine (expectName_takes ts).bind fun first us hFirst _ => ?_
      dsimp only
      split
      · next hComma =>
          have hNext : Passed 2 ts us.tail := hFirst.trans (.tail_of_operator hComma)
          have hTail := hNext.length_le
          refine (ih (by omega)).bind fun others rest hOthers _ => ?_
          exact (hNext.trans hOthers).mono (by omega)
      · exact hFirst

/-- A heading takes its name at least. -/
theorem signature_takes (ts : List Token) : Takes 1 ts (signature ts) := by
  unfold signature
  refine (expectName_takes ts).bind fun name us hName _ => ?_
  refine (expectOperator_yields "(" us).bind fun vs hOpens => ?_
  split
  · next hCloses =>
      exact ((hName.trans hOpens).trans (.tail_of_operator hCloses)).mono (by omega)
  · refine (names_takes (by unfold budget; omega)).bind fun params ws hNames _ => ?_
    refine (expectOperator_yields ")" ws).bind fun rest hCloses => ?_
    exact (((hName.trans hOpens).trans hNames).trans hCloses).mono (by omega)

theorem simple_takes (ts : List Token) : Takes 1 ts (simple ts) := by
  unfold simple
  refine (read_takes 0 ts).bind fun e us hValue _ => ?_
  dsimp only
  split
  · exact hValue
  · exact hValue

/-- What the readers of statements do when the budget is enough for the tokens. -/
structure Advances (fuel : Nat) : Prop where
  statement : ∀ {ts : List Token}, 4 * ts.length + 2 ≤ fuel →
    Takes 1 ts (Reading.statement fuel ts)
  phrase : ∀ {ts : List Token}, 4 * ts.length + 2 ≤ fuel → ∀ t,
    Takes 0 ts (Reading.phrase fuel t ts)
  conditional : ∀ {ts : List Token}, 4 * ts.length + 1 ≤ fuel →
    Takes 1 ts (Reading.conditional fuel ts)
  subroutine : ∀ {ts : List Token}, 4 * ts.length + 1 ≤ fuel → ∀ kind,
    Takes 1 ts (Reading.subroutine fuel kind ts)
  body : ∀ {ts : List Token}, 4 * ts.length + 3 ≤ fuel → Takes 1 ts (Reading.body fuel ts)
  block : ∀ {ts : List Token}, 4 * ts.length + 1 ≤ fuel → Takes 1 ts (Reading.block fuel ts)
  blockRest : ∀ {ts : List Token}, 4 * ts.length + 3 ≤ fuel →
    Takes 1 ts (Reading.blockRest fuel ts)

namespace Advances

variable {fuel : Nat} {ts : List Token}

/-- Step for a statement, by its first token. The end and a stray keyword are
rejected. -/
theorem statement_succ (hFuel : Advances fuel) (hLasts : 4 * ts.length + 2 ≤ fuel + 1) :
    Takes 1 ts (Reading.statement (fuel + 1) ts) := by
  have hSkip {r : Except Failure (Statement × List Token)} (h : Takes 1 ts r) :
      Takes 1 ts (r >>= fun read => .ok (read.1, skipSemicolons read.2)) :=
    h.bind fun s us hTaken _ => hTaken.trans (.skipSemicolons us)
  rw [Reading.statement]
  dsimp only
  split
  · exact .reject _ _
  · next hKind =>
      have hWord : Passed 1 ts ts.tail := .tail_of_kind hKind (by decide)
      have hTail := hWord.length_le
      exact hSkip ((hFuel.phrase (by omega) _).after hWord (by omega))
  · split
    · exact (hFuel.block (by omega)).bind fun body us hBlock _ => hSkip hBlock
    · exact hSkip (simple_takes ts)

/-- Step for what follows a keyword. Some keywords need nothing after them, so
no token is promised. -/
theorem phrase_succ (hFuel : Advances fuel) (hLasts : 4 * ts.length + 2 ≤ fuel + 1) (t : Token) :
    Takes 0 ts (Reading.phrase (fuel + 1) t ts) := by
  have hAll {r : Except Failure (Statement × List Token)} (h : Takes 1 ts r) : Takes 0 ts r :=
    h.after (.refl ts) (by omega)
  rw [Reading.phrase]
  split
  · exact hAll (hFuel.conditional (by omega))
  · refine (read_takes 0 ts).bind fun test us hTest _ => ?_
    refine (hFuel.body (by omega)).bind fun body rest hBody _ => ?_
    exact (hTest.trans hBody).mono (by omega)
  · exact .refl ts
  · exact .refl ts
  · exact (optionalExpression_takes ts).bind fun value us hValue _ => hValue
  · exact (optionalExpression_takes ts).bind fun value us hValue _ => hValue
  · exact hAll (letVar_takes ts)
  · exact hAll (constVar_takes ts)
  · exact hAll (hFuel.subroutine (by omega) .function)
  · exact hAll (hFuel.subroutine (by omega) .procedure)
  · exact .reject _ _

/-- Step for a conditional: the test takes a token before the branches are read. -/
theorem conditional_succ (hFuel : Advances fuel) (hLasts : 4 * ts.length + 1 ≤ fuel + 1) :
    Takes 1 ts (Reading.conditional (fuel + 1) ts) := by
  rw [Reading.conditional]
  refine (read_takes 0 ts).bind fun test us hTest _ => ?_
  refine (hFuel.body (by omega)).bind fun yes vs hYes _ => ?_
  have hThen : Passed 2 ts (skipSemicolons vs) := (hTest.trans hYes).trans (.skipSemicolons vs)
  dsimp only
  split
  · next hElse =>
      have hWord : Passed 3 ts (skipSemicolons vs).tail := hThen.trans (.tail_of_keyword hElse)
      have hTail := hWord.length_le
      have hNo {us : List Token} {r : Except Failure (Statement × List Token)} {n : Nat}
          (hPassed : Passed n ts us) (h : Takes 1 us r) :
          Takes 1 ts (r >>= fun read => .ok (Statement.ifElse test yes read.1, read.2)) :=
        h.bind fun no rest hRest _ => (hPassed.trans hRest).mono (by omega)
      split
      · next hIf =>
          have hNext : Passed 4 ts (skipSemicolons vs).tail.tail :=
            hWord.trans (.tail_of_keyword hIf)
          have hTail := hNext.length_le
          exact hNo hNext (hFuel.conditional (by omega))
      · exact hNo hWord (hFuel.body (by omega))
  · exact hThen.mono (by omega)

theorem subroutine_succ (hFuel : Advances fuel) (hLasts : 4 * ts.length + 1 ≤ fuel + 1)
    (kind : Subroutine.Kind) : Takes 1 ts (Reading.subroutine (fuel + 1) kind ts) := by
  rw [Reading.subroutine]
  refine (signature_takes ts).bind fun heading us hHeading _ => ?_
  refine (hFuel.block (by omega)).bind fun body rest hBody _ => ?_
  exact (hHeading.trans hBody).mono (by omega)

/-- Step for a body, which is a block or a single statement. -/
theorem body_succ (hFuel : Advances fuel) (hLasts : 4 * ts.length + 3 ≤ fuel + 1) :
    Takes 1 ts (Reading.body (fuel + 1) ts) := by
  have hSkipped : Passed 0 ts (skipSemicolons ts) := .skipSemicolons ts
  have hLength := hSkipped.length_le
  rw [Reading.body]
  dsimp only
  split
  · refine (hFuel.block (by omega)).bind fun body rest hBody _ => ?_
    exact (hSkipped.trans hBody).mono (by omega)
  · exact (hFuel.statement (by omega)).after hSkipped (by omega)

/-- Step for a block: the brace pays for reading the rest. -/
theorem block_succ (hFuel : Advances fuel) (hLasts : 4 * ts.length + 1 ≤ fuel + 1) :
    Takes 1 ts (Reading.block (fuel + 1) ts) := by
  rw [Reading.block]
  split
  · next hOpens =>
      have hOpening : Passed 1 ts ts.tail := .tail_of_operator hOpens
      have hTail := hOpening.length_le
      exact (hFuel.blockRest (by omega)).after hOpening (by omega)
  · exact .reject _ _

/-- Step for the rest of a block. Every statement in it takes a token, so that
the turns come to an end. -/
theorem blockRest_succ (hFuel : Advances fuel) (hLasts : 4 * ts.length + 3 ≤ fuel + 1) :
    Takes 1 ts (Reading.blockRest (fuel + 1) ts) := by
  have hSkipped : Passed 0 ts (skipSemicolons ts) := .skipSemicolons ts
  have hLength := hSkipped.length_le
  rw [Reading.blockRest]
  dsimp only
  split
  · next hCloses => exact (hSkipped.trans (.tail_of_operator hCloses)).mono (by omega)
  · split
    · exact .reject _ _
    · refine (hFuel.statement (by omega)).bind fun first us hFirst _ => ?_
      dsimp only
      refine (hFuel.blockRest (by omega)).bind fun others rest hOthers _ => ?_
      exact ((hSkipped.trans hFirst).trans hOthers).mono (by omega)

end Advances

/-- The same induction on the budget, for statements. -/
theorem advances (fuel : Nat) : Advances fuel := by
  induction fuel with
  | zero => constructor <;> intros <;> omega
  | succ fuel ih =>
      exact ⟨ih.statement_succ, ih.phrase_succ, ih.conditional_succ, ih.subroutine_succ,
        ih.body_succ, ih.block_succ, ih.blockRest_succ⟩

/-- Every statement takes a token, so a budget of one step a token lasts to the
end. -/
theorem statements_yields {fuel : Nat} {ts : List Token} (hLasts : ts.length + 1 ≤ fuel) :
    Yields (fun _ => True) (statements fuel ts) := by
  induction fuel generalizing ts with
  | zero => omega
  | succ fuel ih =>
      rw [statements]
      split
      · trivial
      · refine ((advances (budget ts)).statement (by unfold budget; omega)).bind
          fun first us _ hLength => ?_
        exact (ih (by omega)).bind fun others _ => trivial

end Reading

open Reading

/-- Tokens are an expression, or one of them is in the way. -/
theorem Expr.ofTokens_yields (ts : List Token) : Yields (fun _ => True) (Expr.ofTokens ts) := by
  have hFirst : Takes 0 ts (readFirst 0 ts) := by
    unfold readFirst
    split
    · exact .reject _ _
    · exact (read_takes 0 ts).after (.refl ts) (by omega)
  unfold ofTokens
  refine hFirst.bind fun e rest _ _ => ?_
  dsimp only
  split
  · trivial
  · exact .reject _ _

/-- Tokens are a program, or one of them is in the way. -/
theorem Program.ofTokens_yields (ts : List Token) :
    Yields (fun _ => True) (Program.ofTokens ts) := by
  unfold ofTokens
  dsimp only
  split
  · exact .reject _ _
  · exact statements_yields (by unfold budget; omega)

end Reckoner
