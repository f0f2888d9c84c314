import Reckoner.Proofs.Lookahead
import Reckoner.Proofs.Progress

/-! The readers of expressions look one token ahead. Each of them hands fewer
tokens on to the others, or the same ones to a reader that takes some, so the
induction is on the number of tokens. -/
namespace Reckoner

namespace Reading

variable {M : Manner} {c n m : Nat} {ts us : List Token}

/-- An operator between operands is recognised by kind and text alone, so tokens
of one shape join in the same way. -/
theorem joint?_eq {t t' : Token} (h : t'.shape = t.shape) : joint? t' = joint? t := by
  rw [joint?, joint?, Token.kind_eq h, Token.text_eq h]

theorem prefixed?_eq {t t' : Token} (h : t'.shape = t.shape) : prefixed? t' = prefixed? t := by
  rw [prefixed?, prefixed?, Token.text_eq h]

/-- Whether an operand can begin is decided by the shape of the next token. -/
theorem startsOperand_eq {t t' : Token} (h : t'.shape = t.shape) :
    startsOperand t' = startsOperand t := by
  simp only [startsOperand, Token.kind_eq h, Token.isOperator_eq h]

/-! The readers as they are put together. -/

/-- A parenthesis has to come next. -/
def closing {α : Type} (a : α) : Reader α :=
  ifNext .operator ")" (given a) (rejecting .unmatchedParenthesis)

/-- The check of a closing parenthesis, in the form that can be chained. -/
theorem closeParenthesis_bind {α : Type} (a : α) (fuel : Nat) (ts : List Token) :
    (do let rest ← closeParenthesis ts; .ok (a, rest)) = closing a fuel ts := by
  unfold closeParenthesis closing ifNext Token.isOperator Token.isA
  split <;> rfl

/-- What follows a name. -/
def named (name : String) : Reader Expr :=
  ifNext .operator "(" (mapped (.call name) arguments) (given (.name name))

def grouped : Reader Expr := chain (fun fuel => expression fuel 0) closing

/-- The second operand of a root, if there is one. -/
def rooted (op : Operator) (power : Rat) (first : Expr) : Reader Expr := fun fuel ts =>
  if op = .root ∧ startsOperand (peek ts) then
    mapped (.binary op first) (fun fuel => expression fuel power) fuel ts
  else given (.unary op first) fuel ts

/-- An expression is an operand and what extends it. Each reader is opened once,
as a chain of smaller ones, and what follows uses only these forms. -/
theorem expression_eq (fuel : Nat) (least : Rat) (ts : List Token) :
    expression (fuel + 1) least ts =
      chain operand (fun left fuel => extend fuel least left) fuel ts := by
  rw [expression]
  rfl

/-- Arguments end at once, or hold a sequence up to the parenthesis. -/
theorem arguments_eq (fuel : Nat) (ts : List Token) :
    arguments (fuel + 1) ts = ifNext .operator ")" (given []) (chain sequence closing) fuel ts := by
  rw [arguments]
  simp only [closeParenthesis_bind _ fuel]
  rfl

/-- A sequence goes on after a comma and ends before anything else. -/
theorem sequence_eq (fuel : Nat) (ts : List Token) :
    sequence (fuel + 1) ts = chain (fun fuel => expression fuel 0)
      (fun first => ifNext .operator "," (mapped (first :: ·) sequence) (given [first]))
      fuel ts := by
  rw [sequence]
  rfl

theorem operand_number {t : Token} (h : t.kind = .number) (fuel : Nat) (ts : List Token) :
    operand (fuel + 1) (t :: ts) = literal t >>= fun e => .ok (e, ts) := by
  simp only [operand, peek_cons, h, List.tail_cons]

/-- A name is an operand by itself or a call, as the token after it decides. -/
theorem operand_name {t : Token} (h : t.kind = .name) (fuel : Nat) (ts : List Token) :
    operand (fuel + 1) (t :: ts) = named t.text fuel ts := by
  simp only [operand, peek_cons, h, List.tail_cons]
  rfl

/-- After a parenthesis an expression is read afresh, with no least power. -/
theorem operand_opening {t : Token} (h : t.isOperator "(" = true) (fuel : Nat) (ts : List Token) :
    operand (fuel + 1) (t :: ts) = grouped fuel ts := by
  simp only [operand, peek_cons, kind_of_isOperator h, h, if_true, List.tail_cons,
    closeParenthesis_bind _ fuel]
  rfl

/-- A prefix operator takes an operand of its own power. A root may take a
second one. -/
theorem operand_prefixed {t : Token} {op : Operator} {power : Rat} (h : t.kind = .operator)
    (hPuts : prefixed? t = some (op, power)) (fuel : Nat) (ts : List Token) :
    operand (fuel + 1) (t :: ts) =
      chain (fun fuel => expression fuel power) (rooted op power) fuel ts := by
  simp only [operand, peek_cons, h, isOperator_of_prefixed? hPuts, hPuts, List.tail_cons,
    Bool.false_eq_true, if_false]
  rfl

/-- Four tests decide how an operand begins. A token that passes none of them is
rejected and nothing is taken. -/
theorem operand_rejects (hNumber : (peek ts).kind ≠ .number) (hName : (peek ts).kind ≠ .name)
    (hOpens : (peek ts).isOperator "(" = false)
    (hPuts : (peek ts).kind = .operator → prefixed? (peek ts) = none) (fuel : Nat) :
    operand (fuel + 1) ts = reject (.unexpectedToken none) (peek ts) := by
  rw [operand]
  cases hKind : (peek ts).kind with
  | number => exact absurd hKind hNumber
  | name => exact absurd hKind hName
  | operator => simp only [hOpens, hPuts hKind, Bool.false_eq_true, if_false]
  | _ => rfl

/-! What completes them. -/

/-- A sign that cannot close an expression is not what comes after a finished
one. -/
theorem not_isA_of_closers {text : String} (hText : text ∉ Token.closers) (us : List Token)
    (hStop : Manner.expression.stop us) : (peek us).isA .operator text = false :=
  Token.Among.not_operator hStop hText

/-- Before a token that closes expressions nothing is added to the left operand. -/
theorem extends_of_stop {least : Rat} {left : Expr} (hStop : Manner.expression.stop us) :
    Extends least left [] left (peek us) := by
  refine .stop fun joint hJoint => ?_
  rw [(Token.Among.parts hStop).joint] at hJoint
  cases hJoint

/-- A name completes an expression wherever one is required. -/
theorem expression_completes (least : Rat) :
    Completes .closed .expression 2 (fun fuel => expression fuel least) := by
  refine ⟨[Token.identifier "x"], .name "x", .cons rfl unfinished_nil,
    fun rest hRest => ⟨trivial, fun fuel hFuel => ?_⟩⟩
  have hParts : (peek rest).Parts := Token.Among.parts hRest
  have hName : IsOperand [Token.identifier "x"] (.name "x") (peek rest) := .name rfl hParts.apart
  refine (hName.isExpression_of_parts hParts least).reads rfl ?_
  rw [List.length_append] at hFuel
  omega

/-- After an operand an expression is already complete. -/
theorem extend_completes (least : Rat) (left : Expr) :
    Completes .expression .expression 1 (fun fuel => extend fuel least left) := by
  refine .nothing left (fun _ hStop => hStop) fun us hStop fuel hFuel => ?_
  exact (extends_of_stop hStop).reads rfl (by simp only [List.length_nil]; omega)

/-- A parenthesis completes what was opened, and then nothing more is needed. -/
theorem closing_completes {α : Type} (a : α) (hLeft : M.left = id) :
    Completes .expression M 0 (closing a) := by
  refine .ifNext (.given a hLeft fun _ _ => trivial) (by decide) (fun _ => ?_) (Nat.zero_le 4)
  exact .inr ⟨")", by decide, rfl⟩

/-- One expression completes a sequence of arguments. -/
theorem sequence_completes : Completes .closed .expression 3 sequence := by
  have hNext (first : Expr) : Completes .expression .expression 0
      (ifNext .operator "," (mapped (first :: ·) sequence) (given [first])) :=
    .ifNext_given [first] rfl (fun _ hStop => hStop) (not_isA_of_closers (by decide))
  have hInner := (expression_completes 0).chain (fun _ _ _ => rfl) hNext (Nat.le_refl 2) (by omega)
  exact hInner.step sequence_eq

/-- A parenthesis completes a call, since it may have no arguments. -/
theorem arguments_completes : Completes .closed .closed 4 arguments := by
  have hInner : Completes .closed .closed 3
      (ifNext .operator ")" (given []) (chain sequence closing)) :=
    .ifNext (.given [] rfl fun _ hStop => hStop) (by decide) (fun _ => trivial) (Nat.zero_le 7)
  exact hInner.step arguments_eq

theorem named_completes (name : String) : Completes .closed .expression 0 (named name) :=
  .ifNext_given (Expr.name name) rfl (fun _ _ => trivial) (not_isA_of_closers (by decide))

theorem grouped_completes : Completes .closed .expression 2 grouped :=
  (expression_completes 0).chain (fun _ _ _ => rfl) (fun inner => closing_completes inner rfl)
    (Nat.le_refl 2) (Nat.zero_le 2)

/-- A root needs no second operand. -/
theorem rooted_completes (op : Operator) (power : Rat) (first : Expr) :
    Completes .expression .expression c (rooted op power first) := by
  refine .nothing (.unary op first) (fun _ hStop => hStop) fun us hStop fuel _ => ?_
  have hAlone : ¬ (op = .root ∧ startsOperand (peek us) = true) := by
    rw [Token.Among.not_startsOperand hStop]
    simp
  exact if_neg hAlone

/-! Each reader, when the others do so on fewer tokens. -/

/-- The readers of expressions look one token ahead on fewer than `m` tokens. -/
structure LooksAhead (m : Nat) : Prop where
  expression : ∀ {ts : List Token}, ts.length < m → ∀ least,
    Exact .expression 2 1 (fun fuel => Reading.expression fuel least) ts
  extend : ∀ {ts : List Token}, ts.length < m → ∀ least left,
    Exact .expression 1 0 (fun fuel => Reading.extend fuel least left) ts
  arguments : ∀ {ts : List Token}, ts.length < m → Exact .closed 4 1 Reading.arguments ts
  sequence : ∀ {ts : List Token}, ts.length < m → Exact .expression 3 1 Reading.sequence ts

namespace LooksAhead

theorem mono (h : LooksAhead m) (hLe : n ≤ m) : LooksAhead n :=
  ⟨fun hLess => h.expression (Nat.lt_of_lt_of_le hLess hLe),
    fun hLess => h.extend (Nat.lt_of_lt_of_le hLess hLe),
    fun hLess => h.arguments (Nat.lt_of_lt_of_le hLess hLe),
    fun hLess => h.sequence (Nat.lt_of_lt_of_le hLess hLe)⟩

/-- Step for the operators of an expression: whatever joins takes a token and
reads its operand from fewer tokens, so the assumption applies to the rest. -/
theorem extend_exact (h : LooksAhead ts.length) (least : Rat) (left : Expr) :
    Exact .expression 1 0 (fun fuel => Reading.extend fuel least left) ts := by
  by_cases hEnds : ∀ joint, joint? (peek ts) = some joint → joint.binding.admits least = false
  · refine .stay left fun us hAllows fuel hFuel => ?_
    have hStops : Extends least left [] left (peek us) := by
      rcases hAllows with hPeek | hStop
      · exact .stop fun joint hJoint => hEnds joint (joint?_eq hPeek ▸ hJoint)
      · exact extends_of_stop hStop
    exact hStops.reads rfl (by simp only [List.length_nil]; omega)
  · simp only [Classical.not_forall, Bool.not_eq_false] at hEnds
    obtain ⟨joint, hJoint, hAdmits⟩ := hEnds
    cases ts with
    | nil => cases hJoint
    | cons t us =>
        have hMore (right : Expr) := extend_completes least (joint.combine left right)
        have hNext := (h.expression (Nat.lt_succ_self us.length) joint.binding.right).chain
          (c := 2) (k := 0) (fun _ _ _ => rfl)
          (fun right vs hLength => h.extend (by simp only [List.length_cons]; omega) least
            (joint.combine left right))
          (fun _ _ hStop => hStop) hMore (by omega)
        have hBoth := (expression_completes joint.binding.right).chain (c := 2) (fun _ _ _ => rfl)
          hMore (Nat.le_refl 2) (by omega)
        have hInner : Exact .expression 0 0 (fun fuel => Reading.extend (fuel + 1) least left)
            (t :: us) := by
          refine (hNext.token (isFinish_of_joint hJoint) ?_ hBoth (by omega)).mono (Nat.zero_le _)
          intro fuel t' us' hToken
          have hJoint' : joint? t' = some joint := (joint?_eq hToken).trans hJoint
          simp only [Reading.extend, peek_cons, List.tail_cons, hJoint', hAdmits, if_true]
          rfl
        exact hInner.step fun _ _ => rfl

/-- The second operand of a root is read only if the next token can begin one,
and that is decided by its shape. -/
theorem rooted_exact (h : LooksAhead m) (hLess : ts.length < m) (op : Operator) (power : Rat)
    (first : Expr) : Exact .expression 2 0 (rooted op power first) ts := by
  by_cases hStarts : op = .root ∧ startsOperand (peek ts) = true
  · have hSecond := (h.expression hLess power).mapped (Expr.binary op first)
    refine (hSecond.branch fun fuel us hPeek => if_pos ?_).mono (Nat.zero_le 1)
    rwa [startsOperand_eq hPeek]
  · refine .stay (.unary op first) fun us hAllows fuel _ => if_neg ?_
    rcases hAllows with hPeek | hStop
    · rwa [startsOperand_eq hPeek]
    · rw [Token.Among.not_startsOperand hStop]
      simp

theorem closing_exact {α : Type} (a : α) (hLeft : M.left = id) : Exact M c 1 (closing a) ts :=
  .ifNext (fun _ _ => .given a hLeft) (.given a hLeft fun _ _ => trivial) (by decide)
    (Nat.zero_le _) (fun hNext => .ifNext_rejecting hNext) (Nat.le_refl 1)

/-- After a name the reader has to look at one token, to tell a call from a
variable. -/
theorem named_exact (h : LooksAhead m) (hLess : ts.length < m) (name : String) :
    Exact .expression 0 0 (named name) ts := by
  have hMore := (arguments_completes.mapped (Expr.call name)).loosen (N := .expression) rfl
    fun _ _ => trivial
  refine .ifNext (fun us hLength => ?_) hMore (by decide) (Nat.le_refl 4)
    (fun hNext => .ifNext_given _ hNext rfl (not_isA_of_closers (by decide))) (Nat.zero_le 2)
  exact ((h.arguments (by omega)).mapped (Expr.call name)).loosen rfl fun _ _ => trivial

/-- At least an operand and a parenthesis are taken. -/
theorem grouped_exact (h : LooksAhead m) (hLess : ts.length < m) :
    Exact .expression 2 2 grouped ts :=
  (h.expression hLess 0).chain (fun _ _ _ => rfl) (fun inner _ _ => closing_exact inner rfl)
    (fun hZero => absurd hZero (by decide)) (fun inner => closing_completes inner rfl) (by omega)

/-- A token that begins an operand, and the reader that goes on. -/
theorem operand_token {next : Reader Expr} {t : Token} (hNext : Exact .expression c 0 next us)
    (hKind : t.kind ≠ .finish) (hMore : Completes .closed .expression c next) (hc : c ≤ 4)
    (hRead : ∀ fuel t' us', t'.shape = t.shape →
      Reading.operand (fuel + 1) (t' :: us') = next fuel us') :
    Exact .expression 1 1 Reading.operand (t :: us) := by
  have hFinish : t.isFinish = false := by simpa [Token.isFinish] using hKind
  have hInner : Exact .expression 0 1 (fun fuel => Reading.operand (fuel + 1)) (t :: us) :=
    hNext.token hFinish hRead hMore (by omega)
  exact hInner.step fun _ _ => rfl

/-- If no operand can begin then the first token is rejected, so there is
nothing to complete. -/
theorem operand_rejected (hNumber : (peek ts).kind ≠ .number) (hName : (peek ts).kind ≠ .name)
    (hOpens : (peek ts).isOperator "(" = false)
    (hPuts : (peek ts).kind = .operator → prefixed? (peek ts) = none) :
    Exact .expression 1 1 Reading.operand ts := by
  have hInner : Exact .expression 0 1 (fun fuel => Reading.operand (fuel + 1)) ts := by
    refine .reject (.unexpectedToken none) fun us hPeek fuel _ => ?_
    apply operand_rejects
    · rwa [Token.kind_eq hPeek]
    · rwa [Token.kind_eq hPeek]
    · rwa [Token.isOperator_eq hPeek]
    · rwa [Token.kind_eq hPeek, prefixed?_eq hPeek]
  exact hInner.step fun _ _ => rfl

/-- The value of a literal depends on the text of its token. A literal without a
value is rejected at the token itself. -/
theorem operand_number_exact {t : Token} (hKind : t.kind = .number) :
    Exact .expression 1 1 Reading.operand (t :: us) := by
  have hRead (fuel : Nat) (t' : Token) (us' : List Token) (hToken : t'.shape = t.shape) :=
    operand_number ((Token.kind_eq hToken).trans hKind) fuel us'
  cases hValue : Literal.value? t.text with
  | some value =>
      refine operand_token (.given (Expr.number value t.text) rfl) (by simp [hKind])
        (.given _ rfl fun _ _ => trivial) (Nat.zero_le 4) fun fuel t' us' hToken => ?_
      rw [hRead fuel t' us' hToken, literal, Token.text_eq hToken, hValue]
      rfl
  | none =>
      have hInner : Exact .expression 0 1 (fun fuel => Reading.operand (fuel + 1)) (t :: us) := by
        refine .reject .invalidNumber fun vs hPeek fuel _ => ?_
        cases vs with
        | nil => exact absurd ((Token.kind_eq hPeek).trans hKind) (by decide)
        | cons t' us' =>
            have hText : t'.text = t.text := Token.text_eq hPeek
            rw [hRead fuel t' us' hPeek, literal, hText, hValue]
            rfl
      exact hInner.step fun _ _ => rfl

/-- One case for each token that can begin an operand, and one for all the
others. -/
theorem operand_exact (h : LooksAhead ts.length) : Exact .expression 1 1 Reading.operand ts := by
  cases ts with
  | nil => exact operand_rejected (by decide) (by decide) (by decide) (fun _ => by decide)
  | cons t us =>
      have hLess : us.length < (t :: us).length := Nat.lt_succ_self _
      cases hKind : t.kind with
      | number => exact operand_number_exact hKind
      | name =>
          refine operand_token (h.named_exact hLess t.text) (by simp [hKind])
            (named_completes t.text) (Nat.zero_le 4) fun fuel t' us' hToken => ?_
          rw [operand_name ((Token.kind_eq hToken).trans hKind), Token.text_eq hToken]
      | operator =>
          cases hOpens : t.isOperator "(" with
          | true =>
              refine operand_token ((h.grouped_exact hLess).mono (Nat.zero_le 2)) (by simp [hKind])
                grouped_completes (by omega) fun fuel t' us' hToken => ?_
              exact operand_opening ((Token.isOperator_eq hToken "(").trans hOpens) fuel us'
          | false =>
              cases hPuts : prefixed? t with
              | none =>
                  refine operand_rejected ?_ ?_ hOpens fun _ => hPuts <;> simp [peek_cons, hKind]
              | some before =>
                  obtain ⟨op, power⟩ := before
                  have hNext := (h.expression hLess power).chain (c := 2) (k := 0)
                    (fun _ _ _ => rfl)
                    (fun first vs hLength => h.rooted_exact (by omega) op power first)
                    (fun _ _ hStop => hStop) (rooted_completes op power) (by omega)
                  have hMore := (expression_completes power).chain (c := 2) (fun _ _ _ => rfl)
                    (rooted_completes op power) (Nat.le_refl 2) (Nat.le_refl 2)
                  refine operand_token (hNext.mono (Nat.zero_le _)) (by simp [hKind]) hMore
                    (by omega) fun fuel t' us' hToken => ?_
                  exact operand_prefixed ((Token.kind_eq hToken).trans hKind)
                    ((prefixed?_eq hToken).trans hPuts) fuel us'
      | _ =>
          refine operand_rejected ?_ ?_ (isOperator_of_kind hKind (by decide) _)
            fun hOperator => ?_ <;> simp_all [peek_cons]

/-- An operand takes a token, and its extension reads the rest. -/
theorem expression_exact (h : LooksAhead ts.length) (least : Rat) :
    Exact .expression 2 1 (fun fuel => Reading.expression fuel least) ts := by
  have hInner := h.operand_exact.chain (c := 1) (k := 0) (fun _ _ _ => rfl)
    (fun left us hLength => h.extend (by omega) least left) (fun _ _ hStop => hStop)
    (extend_completes least) (by omega)
  exact hInner.step fun fuel us => expression_eq fuel least us

/-- After the comma there are fewer tokens, so the tail of a sequence is covered
by the assumption. -/
theorem sequence_exact (h : LooksAhead ts.length) : Exact .expression 3 1 Reading.sequence ts := by
  have hNext (first : Expr) (us : List Token) (hLength : us.length + 1 ≤ ts.length) :
      Exact .expression 0 0
        (ifNext .operator "," (mapped (first :: ·) Reading.sequence) (given [first])) us :=
    .ifNext (fun vs _ => (h.sequence (by omega)).mapped (first :: ·))
      (sequence_completes.mapped (first :: ·)) (by decide) (by omega)
      (fun hNext => .ifNext_given _ hNext rfl (not_isA_of_closers (by decide))) (Nat.zero_le 2)
  have hMore (first : Expr) : Completes .expression .expression 0
      (ifNext .operator "," (mapped (first :: ·) Reading.sequence) (given [first])) :=
    .ifNext_given [first] rfl (fun _ hStop => hStop) (not_isA_of_closers (by decide))
  have hInner := (h.expression_exact 0).chain (c := 2) (fun _ _ _ => rfl) hNext
    (fun _ _ hStop => hStop) hMore (by omega)
  exact hInner.step sequence_eq

theorem arguments_exact (h : LooksAhead ts.length) : Exact .closed 4 1 Reading.arguments ts := by
  have hBoth := h.sequence_exact.chain (M := .expression) (N := .closed) (c := 3) (k := 1)
    (fun _ _ _ => rfl) (fun args _ _ => closing_exact (c := 0) args rfl)
    (fun hZero => absurd hZero (by decide)) (fun args => closing_completes args rfl) (by omega)
  have hInner : Exact .closed 3 1
      (ifNext .operator ")" (given []) (chain Reading.sequence closing)) ts :=
    .ifNext (fun _ _ => .given [] rfl) (.given [] rfl fun _ hStop => hStop) (by decide)
      (Nat.zero_le 7) (fun hNext => (hBoth.ifNext_not hNext).mono (by omega)) (Nat.le_refl 1)
  exact hInner.step arguments_eq

end LooksAhead

/-- The induction on the number of tokens, with all four readers at once. -/
theorem looksAhead (m : Nat) : LooksAhead m := by
  induction m with
  | zero => constructor <;> intros <;> omega
  | succ m ih =>
      have hBelow {ts : List Token} (hLess : ts.length < m + 1) : LooksAhead ts.length :=
        ih.mono (Nat.le_of_lt_succ hLess)
      exact ⟨fun hLess => (hBelow hLess).expression_exact, fun hLess => (hBelow hLess).extend_exact,
        fun hLess => (hBelow hLess).arguments_exact, fun hLess => (hBelow hLess).sequence_exact⟩

/-- A whole expression depends on the tokens that it takes and on the one after
them. -/
theorem read_exact (least : Rat) (ts : List Token) :
    Exact .expression 0 1 (fun _ => Expr.read least) ts :=
  ((looksAhead (ts.length + 1)).expression (Nat.lt_succ_self _) least).ofBudget (by omega)

theorem read_completes (least : Rat) :
    Completes .closed .expression 0 (fun _ => Expr.read least) :=
  (expression_completes least).ofBudget (by omega)

end Reading

end Reckoner
