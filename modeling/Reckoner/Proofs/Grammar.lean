import Reckoner.Expr.Reading

/-! The grammar of expressions. Whether some tokens are an expression depends on
these tokens and on the one after them, and on nothing else. The reader finds
exactly what the grammar allows, and its budget always lasts. -/
namespace Reckoner

namespace Reading

/-- The first of some tokens, or the one after them if there are none. -/
def first (ts : List Token) (next : Token) : Token := peek (ts ++ [next])

theorem peek_cons (t : Token) (ts : List Token) : peek (t :: ts) = t := rfl

/-- Looking ahead over some tokens needs only them and the one after them. -/
theorem peek_append (ts rest : List Token) : peek (ts ++ rest) = first ts (peek rest) := by
  cases ts with
  | nil => cases rest <;> rfl
  | cons t ts => rfl

mutual

/-- Tokens that are an expression, in a context that admits no power below
`least` and with the token `next` after them. -/
inductive IsExpression : Rat → List Token → Expr → Token → Prop
  | mk {least : Rat} {ts us : List Token} {left e : Expr} {next : Token}
      (begins : IsOperand ts left (first us next)) (goesOn : Extends least left us e next) :
      IsExpression least (ts ++ us) e next

/-- Tokens that make an expression out of the one on their left. -/
inductive Extends : Rat → Expr → List Token → Expr → Token → Prop
  | stop {least : Rat} {e : Expr} {next : Token}
      (ends : ∀ joint, joint? next = some joint → joint.binding.admits least = false) :
      Extends least e [] e next
  | join {least : Rat} {left right e : Expr} {t next : Token} {joint : Joint} {ts us : List Token}
      (joins : joint? t = some joint) (admitted : joint.binding.admits least = true)
      (operand : IsExpression joint.binding.right ts right (first us next))
      (goesOn : Extends least (joint.combine left right) us e next) :
      Extends least left (t :: (ts ++ us)) e next

inductive IsOperand : List Token → Expr → Token → Prop
  | number {t next : Token} {e : Expr} (kind : t.kind = .number) (spells : literal t = .ok e) :
      IsOperand [t] e next
  | name {t next : Token} (kind : t.kind = .name) (apart : next.isOperator "(" = false) :
      IsOperand [t] (.name t.text) next
  | call {t opening next : Token} {ts : List Token} {args : List Expr} (kind : t.kind = .name)
      (opens : opening.isOperator "(" = true) (inner : AreArguments ts args) :
      IsOperand (t :: opening :: ts) (.call t.text args) next
  | group {opening closing next : Token} {ts : List Token} {e : Expr}
      (opens : opening.isOperator "(" = true) (closes : closing.isOperator ")" = true)
      (inner : IsExpression 0 ts e closing) : IsOperand (opening :: (ts ++ [closing])) e next
  | unary {t next : Token} {op : Operator} {power : Rat} {ts : List Token} {e : Expr}
      (kind : t.kind = .operator) (puts : prefixed? t = some (op, power))
      (inner : IsExpression power ts e next) (alone : op = .root → startsOperand next = false) :
      IsOperand (t :: ts) (.unary op e) next
  | root {t next : Token} {power : Rat} {ts us : List Token} {degree radicand : Expr}
      (kind : t.kind = .operator) (puts : prefixed? t = some (.root, power))
      (former : IsExpression power ts degree (first us next))
      (begins : startsOperand (first us next) = true)
      (latter : IsExpression power us radicand next) :
      IsOperand (t :: (ts ++ us)) (.binary .root degree radicand) next

/-- Tokens that are the arguments of a call, with the parenthesis that closes it. -/
inductive AreArguments : List Token → List Expr → Prop
  | none {closing : Token} (closes : closing.isOperator ")" = true) : AreArguments [closing] []
  | some {closing : Token} {ts : List Token} {args : List Expr}
      (inner : AreSequence ts args closing) (closes : closing.isOperator ")" = true) :
      AreArguments (ts ++ [closing]) args

/-- Tokens that are one or more expressions with commas between them. -/
inductive AreSequence : List Token → List Expr → Token → Prop
  | one {ts : List Token} {e : Expr} {next : Token} (inner : IsExpression 0 ts e next)
      (ends : next.isOperator "," = false) : AreSequence ts [e] next
  | more {ts us : List Token} {e : Expr} {es : List Expr} {comma next : Token}
      (inner : IsExpression 0 ts e comma) (divides : comma.isOperator "," = true)
      (others : AreSequence us es next) : AreSequence (ts ++ comma :: us) (e :: es) next

end

/-- An operand is an expression by itself if nothing that may go on follows. -/
theorem IsOperand.isExpression {ts : List Token} {e : Expr} {next : Token} (h : IsOperand ts e next)
    {least : Rat}
    (hEnds : ∀ joint, joint? next = some joint → joint.binding.admits least = false) :
    IsExpression least ts e next := by
  have hWhole : IsExpression least (ts ++ []) e next := .mk h (.stop hEnds)
  rwa [List.append_nil] at hWhole

theorem kind_of_isOperator {t : Token} {text : String} (h : t.isOperator text = true) :
    t.kind = .operator := by
  simp only [Token.isOperator, Bool.and_eq_true, beq_iff_eq] at h
  exact h.1

theorem text_of_isOperator {t : Token} {text : String} (h : t.isOperator text = true) :
    t.text = text := by
  simp only [Token.isOperator, Bool.and_eq_true, beq_iff_eq] at h
  exact h.2

/-- Only an operator is tested for its text. -/
theorem isOperator_of_kind {t : Token} {kind : Token.Kind} (h : t.kind = kind)
    (hKind : kind ≠ .operator) (text : String) : t.isOperator text = false := by
  simp [Token.isOperator, h, hKind]

/-- What goes on with an expression is an operator between two operands, or an
assignment that also computes. -/
theorem joint?_cases {t : Token} {joint : Joint} (h : joint? t = some joint) :
    (∃ op b, t.kind = .operator ∧ Operator.ofGlyph? t.text = some op ∧
      op.infixBinding? = some b ∧ joint = ⟨b, .binary op⟩) ∨
    ∃ op, t.kind = .augmented ∧ Operator.ofAugmented? t.text = some op ∧
      joint = ⟨⟨2 / 10, 0, false⟩,
        fun left right => .binary .assign left (.binary op left right)⟩ := by
  unfold joint? at h
  split at h
  · next hKind =>
      obtain ⟨op, hGlyph, h⟩ := Option.bind_eq_some_iff.mp h
      obtain ⟨b, hBinding, h⟩ := Option.bind_eq_some_iff.mp h
      exact .inl ⟨op, b, hKind, hGlyph, hBinding, (Option.some.inj h).symm⟩
  · next hKind =>
      obtain ⟨op, hText, h⟩ := Option.bind_eq_some_iff.mp h
      exact .inr ⟨op, hKind, hText, (Option.some.inj h).symm⟩
  · cases h

/-- A parenthesis is not put before an operand. -/
theorem isOperator_of_prefixed? {t : Token} {r : Operator × Rat} (h : prefixed? t = some r) :
    t.isOperator "(" = false := by
  rw [Bool.eq_false_iff]
  intro hOpening
  rw [prefixed?, text_of_isOperator hOpening] at h
  cases h

theorem closeParenthesis_cons {t : Token} (h : t.isOperator ")" = true) (ts : List Token) :
    closeParenthesis (t :: ts) = .ok ts := if_pos h

/-- Whether a token can be the first one of an expression. -/
def Leads (t : Token) : Prop :=
  t.kind = .number ∨ t.kind = .name ∨
    t.kind = .operator ∧ (t.text = "(" ∨ (Operator.ofGlyph? t.text).isSome = true)

theorem Leads.not_finish {t : Token} (h : Leads t) : t.isFinish = false := by
  rcases h with h | h | ⟨h, _⟩ <;> simp [Token.isFinish, h]

theorem Leads.not_keyword {t : Token} (h : Leads t) : t.kind ≠ .keyword := by
  rcases h with h | h | ⟨h, _⟩ <;> simp [h]

/-- The signs that close or divide cannot be the first token of an expression. -/
theorem Leads.not_operator {t : Token} (h : Leads t) {text : String}
    (hText : Operator.ofGlyph? text = none) (hOpening : text ≠ "(") :
    t.isOperator text = false := by
  rcases h with h | h | ⟨_, h⟩
  · exact isOperator_of_kind h (by decide) text
  · exact isOperator_of_kind h (by decide) text
  · rw [Bool.eq_false_iff]
    intro hOperator
    rw [text_of_isOperator hOperator, hText] at h
    rcases h with h | h
    · exact hOpening h
    · cases h

/-- One case for each way to begin an operand. -/
theorem IsOperand.leads {ts : List Token} {e : Expr} {next : Token} (h : IsOperand ts e next)
    (rest : List Token) : Leads (peek (ts ++ rest)) := by
  have hPrefixed {t : Token} {r : Operator × Rat} (hPuts : prefixed? t = some r) :
      (Operator.ofGlyph? t.text).isSome = true := by
    obtain ⟨op, hOp, -⟩ := Option.bind_eq_some_iff.mp hPuts
    rw [hOp]
    rfl
  cases h with
  | number kind spells => exact .inl kind
  | name kind apart => exact .inr (.inl kind)
  | call kind opens inner => exact .inr (.inl kind)
  | group opens closes inner =>
      exact .inr (.inr ⟨kind_of_isOperator opens, .inl (text_of_isOperator opens)⟩)
  | unary kind puts inner alone => exact .inr (.inr ⟨kind, .inr (hPrefixed puts)⟩)
  | root kind puts former begins latter => exact .inr (.inr ⟨kind, .inr (hPrefixed puts)⟩)

/-- An expression begins as its first operand does. -/
theorem IsExpression.leads {least : Rat} {ts : List Token} {e : Expr} {next : Token}
    (h : IsExpression least ts e next) (rest : List Token) : Leads (peek (ts ++ rest)) := by
  cases h with
  | mk begins goesOn =>
      rw [List.append_assoc]
      exact begins.leads _

theorem AreSequence.leads {ts : List Token} {es : List Expr} {next : Token}
    (h : AreSequence ts es next) (rest : List Token) : Leads (peek (ts ++ rest)) := by
  cases h with
  | one inner ends => exact inner.leads rest
  | more inner divides others =>
      rw [List.append_assoc]
      exact inner.leads _

/-! What the grammar allows is read. A reader hands on at most four steps of its
budget for each token that it takes. -/

mutual

/-- An expression of the grammar is read and nothing beyond it. The induction
follows the derivation, for all five notions at once. -/
theorem IsExpression.reads {least : Rat} {ts : List Token} {e : Expr} {next : Token}
    (h : IsExpression least ts e next) {rest : List Token} (hNext : peek rest = next) {fuel : Nat}
    (hFuel : 4 * ts.length + 2 ≤ fuel) : expression fuel least (ts ++ rest) = .ok (e, rest) := by
  match h, fuel with
  | _, 0 => omega
  | @IsExpression.mk _ ts us left _ _ begins goesOn, fuel + 1 =>
      rw [List.length_append] at hFuel
      have hPeek : peek (us ++ rest) = first us next := by rw [peek_append, hNext]
      have hBegins := begins.reads hPeek (show 4 * ts.length + 1 ≤ fuel by omega)
      rw [List.append_assoc, expression, hBegins]
      exact goesOn.reads hNext (by omega)

/-- Where the grammar stops the reader stops, since the next token is not
admitted; where it goes on, the operator and its operand are taken. -/
theorem Extends.reads {least : Rat} {left : Expr} {ts : List Token} {e : Expr} {next : Token}
    (h : Extends least left ts e next) {rest : List Token} (hNext : peek rest = next) {fuel : Nat}
    (hFuel : 4 * ts.length + 1 ≤ fuel) : extend fuel least left (ts ++ rest) = .ok (e, rest) := by
  match h, fuel with
  | _, 0 => omega
  | .stop ends, fuel + 1 =>
      rw [List.nil_append, extend, hNext]
      cases hJoint : joint? next with
      | none => rfl
      | some joint =>
          dsimp only
          rw [ends joint hJoint]
          rfl
  | @Extends.join _ _ right _ t _ joint ts us joins admitted operand goesOn, fuel + 1 =>
      rw [List.length_cons, List.length_append] at hFuel
      have hPeek : peek (us ++ rest) = first us next := by rw [peek_append, hNext]
      rw [List.cons_append, List.append_assoc, extend]
      simp only [peek_cons, List.tail_cons, joins, admitted, if_true]
      rw [operand.reads hPeek (by omega)]
      exact goesOn.reads hNext (by omega)

/-- The first token tells which rule was used. -/
theorem IsOperand.reads {ts : List Token} {e : Expr} {next : Token} (h : IsOperand ts e next)
    {rest : List Token} (hNext : peek rest = next) {fuel : Nat}
    (hFuel : 4 * ts.length + 1 ≤ fuel) : operand fuel (ts ++ rest) = .ok (e, rest) := by
  match h, fuel with
  | _, 0 => omega
  | @IsOperand.number t _ _ kind spells, fuel + 1 =>
      rw [operand]
      simp only [List.cons_append, List.nil_append, peek_cons, List.tail_cons, kind, spells]
      rfl
  | @IsOperand.name t _ kind apart, fuel + 1 =>
      have hApart : (peek rest).isOperator "(" = false := hNext ▸ apart
      rw [operand]
      simp only [List.cons_append, List.nil_append, peek_cons, List.tail_cons, kind, hApart,
        Bool.false_eq_true, if_false]
  | @IsOperand.call t opening _ ts args kind opens inner, fuel + 1 =>
      rw [operand]
      simp only [List.cons_append, peek_cons, List.tail_cons, kind, opens, if_true]
      rw [inner.reads (by simp only [List.length_cons] at hFuel; omega)]
      rfl
  | @IsOperand.group opening closing _ ts _ opens closes inner, fuel + 1 =>
      rw [operand]
      simp only [List.cons_append, List.append_assoc, List.nil_append, peek_cons, List.tail_cons,
        kind_of_isOperator opens, opens, if_true]
      rw [inner.reads rfl (by simp only [List.length_cons, List.length_append] at hFuel; omega)]
      exact congrArg (Except.map _) (closeParenthesis_cons closes rest)
  | @IsOperand.unary t _ op power ts e kind puts inner alone, fuel + 1 =>
      have hOpening : t.isOperator "(" = false := isOperator_of_prefixed? puts
      rw [operand]
      simp only [List.cons_append, peek_cons, List.tail_cons, kind, hOpening, Bool.false_eq_true,
        if_false, puts]
      rw [List.length_cons] at hFuel
      rw [inner.reads hNext (by omega)]
      have hAlone : ¬ (op = .root ∧ startsOperand (peek rest) = true) := by
        rintro ⟨hRoot, hStarts⟩
        rw [hNext, alone hRoot] at hStarts
        cases hStarts
      exact if_neg hAlone
  | @IsOperand.root t _ power ts us a b kind puts former begins latter, fuel + 1 =>
      have hOpening : t.isOperator "(" = false := isOperator_of_prefixed? puts
      have hPeek : peek (us ++ rest) = first us next := by rw [peek_append, hNext]
      rw [operand]
      simp only [List.cons_append, List.append_assoc, peek_cons, List.tail_cons, kind, hOpening,
        Bool.false_eq_true, if_false, puts]
      rw [List.length_cons, List.length_append] at hFuel
      rw [former.reads hPeek (by omega)]
      have hBegins : startsOperand (peek (us ++ rest)) = true := hPeek ▸ begins
      have hSecond := latter.reads hNext (show 4 * us.length + 2 ≤ fuel by omega)
      simp only [bind, Except.bind, hBegins, and_self, if_true, hSecond]

/-- A closing parenthesis cannot begin an expression, so no arguments are not
mistaken for some. -/
theorem AreArguments.reads {ts : List Token} {args : List Expr} (h : AreArguments ts args)
    {rest : List Token} {fuel : Nat} (hFuel : 4 * ts.length + 4 ≤ fuel) :
    arguments fuel (ts ++ rest) = .ok (args, rest) := by
  match h, fuel with
  | _, 0 => omega
  | @AreArguments.none closing closes, fuel + 1 => exact if_pos closes
  | @AreArguments.some closing ts _ inner closes, fuel + 1 =>
      rw [List.length_append] at hFuel
      have hBegins : (peek (ts ++ ([closing] ++ rest))).isOperator ")" = false :=
        (inner.leads _).not_operator rfl (by decide)
      rw [List.append_assoc, arguments, if_neg (Bool.eq_false_iff.mp hBegins)]
      rw [inner.reads rfl (by omega)]
      exact congrArg (Except.map _) (closeParenthesis_cons closes rest)

/-- A comma is taken exactly where the grammar divides. -/
theorem AreSequence.reads {ts : List Token} {es : List Expr} {next : Token}
    (h : AreSequence ts es next) {rest : List Token} (hNext : peek rest = next) {fuel : Nat}
    (hFuel : 4 * ts.length + 3 ≤ fuel) : sequence fuel (ts ++ rest) = .ok (es, rest) := by
  match h, fuel with
  | _, 0 => omega
  | @AreSequence.one ts e _ inner ends, fuel + 1 =>
      have hEnds : ¬ (peek rest).isOperator "," = true := by rw [hNext, ends]; simp
      rw [sequence, inner.reads hNext (by omega)]
      exact if_neg hEnds
  | @AreSequence.more ts us e es comma _ inner divides others, fuel + 1 =>
      rw [List.length_append, List.length_cons] at hFuel
      rw [List.append_assoc, List.cons_append, sequence, inner.reads rfl (by omega)]
      have hOthers := others.reads hNext (show 4 * us.length + 3 ≤ fuel by omega)
      simp only [bind, Except.bind, peek_cons, divides, if_true, List.tail_cons, hOthers]

end

/-! What is read follows the grammar. -/

/-- A sequence of readers succeeds only if each of them does. -/
theorem bind_ok {α β : Type} {x : Except Failure α} {f : α → Except Failure β} {b : β}
    (h : x >>= f = .ok b) : ∃ a, x = .ok a ∧ f a = .ok b := by
  cases x with
  | error e => cases h
  | ok a => exact ⟨a, rfl, h⟩

/-- There is a next token, unless it is the end. -/
theorem eq_cons_of_kind {ts : List Token} {kind : Token.Kind} (h : (peek ts).kind = kind)
    (hKind : kind ≠ .finish) : ts = peek ts :: ts.tail := by
  cases ts with
  | nil => exact absurd h.symm hKind
  | cons t ts => rfl

/-- An operator that goes on with an expression is a token that is there. -/
theorem eq_cons_of_joint {ts : List Token} {joint : Joint} (h : joint? (peek ts) = some joint) :
    ts = peek ts :: ts.tail := by
  cases ts with
  | nil => cases h
  | cons t ts => rfl

/-- After success the parenthesis is known to have been there. -/
theorem closeParenthesis_ok {ts rest : List Token} (h : closeParenthesis ts = .ok rest) :
    ∃ closing, closing.isOperator ")" = true ∧ ts = closing :: rest := by
  unfold closeParenthesis at h
  split at h
  · next hCloses =>
      cases h
      exact ⟨peek ts, hCloses, eq_cons_of_kind (kind_of_isOperator hCloses) (by decide)⟩
  · cases h

/-- With a given budget, the readers find only what the grammar allows. -/
structure Lawful (fuel : Nat) : Prop where
  expression : ∀ {least : Rat} {ts rest : List Token} {e : Expr},
    Reading.expression fuel least ts = .ok (e, rest) →
      ∃ used, ts = used ++ rest ∧ IsExpression least used e (peek rest)
  extend : ∀ {least : Rat} {left : Expr} {ts rest : List Token} {e : Expr},
    Reading.extend fuel least left ts = .ok (e, rest) →
      ∃ used, ts = used ++ rest ∧ Extends least left used e (peek rest)
  operand : ∀ {ts rest : List Token} {e : Expr}, Reading.operand fuel ts = .ok (e, rest) →
    ∃ used, ts = used ++ rest ∧ IsOperand used e (peek rest)
  arguments : ∀ {ts rest : List Token} {args : List Expr},
    Reading.arguments fuel ts = .ok (args, rest) →
      ∃ used, ts = used ++ rest ∧ AreArguments used args
  sequence : ∀ {ts rest : List Token} {es : List Expr},
    Reading.sequence fuel ts = .ok (es, rest) →
      ∃ used, ts = used ++ rest ∧ AreSequence used es (peek rest)

namespace Lawful

variable {fuel : Nat} {ts rest : List Token}

/-- Step for an expression: the operand that was found and what extends it are
put together by the one rule there is. -/
theorem expression_succ (hFuel : Lawful fuel) {least : Rat} {e : Expr}
    (h : Reading.expression (fuel + 1) least ts = .ok (e, rest)) :
    ∃ used, ts = used ++ rest ∧ IsExpression least used e (peek rest) := by
  rw [Reading.expression] at h
  obtain ⟨⟨left, middle⟩, hOperand, hRest⟩ := bind_ok h
  obtain ⟨former, rfl, hFormer⟩ := hFuel.operand hOperand
  obtain ⟨latter, rfl, hLatter⟩ := hFuel.extend hRest
  rw [peek_append] at hFormer
  exact ⟨former ++ latter, by rw [List.append_assoc], .mk hFormer hLatter⟩

/-- Step for the operators. Stopping needs that the next token was not admitted,
and that is what the reader has tested. -/
theorem extend_succ (hFuel : Lawful fuel) {least : Rat} {left e : Expr}
    (h : Reading.extend (fuel + 1) least left ts = .ok (e, rest)) :
    ∃ used, ts = used ++ rest ∧ Extends least left used e (peek rest) := by
  rw [Reading.extend] at h
  cases hJoint : joint? (peek ts) with
  | none =>
      rw [hJoint] at h
      cases h
      exact ⟨[], rfl, .stop fun joint hSome => nomatch hJoint.symm.trans hSome⟩
  | some joint =>
      cases hAdmits : joint.binding.admits least with
      | false =>
          simp only [hJoint, hAdmits, Bool.false_eq_true, if_false] at h
          cases h
          refine ⟨[], rfl, .stop fun other hSome => ?_⟩
          cases hJoint.symm.trans hSome
          exact hAdmits
      | true =>
          simp only [hJoint, hAdmits, if_true] at h
          obtain ⟨⟨right, middle⟩, hRight, hRest⟩ := bind_ok h
          obtain ⟨former, hTail, hFormer⟩ := hFuel.expression hRight
          obtain ⟨latter, rfl, hLatter⟩ := hFuel.extend hRest
          rw [peek_append] at hFormer
          have hTokens : ts = peek ts :: (former ++ latter) ++ rest := by
            rw [List.cons_append, List.append_assoc, ← hTail]
            exact eq_cons_of_joint hJoint
          exact ⟨_, hTokens, .join hJoint hAdmits hFormer hLatter⟩

/-- A token before an operand takes one operand, or is a root and takes two. -/
theorem operand_prefixed (hFuel : Lawful fuel) {op : Operator} {power : Rat} {t : Token} {e : Expr}
    (hKind : t.kind = .operator) (hPuts : prefixed? t = some (op, power))
    (h : (do
      let (first, us) ← Reading.expression fuel power ts
      if op = .root ∧ startsOperand (peek us) then do
        let (second, us) ← Reading.expression fuel power us
        .ok (.binary op first second, us)
      else .ok (.unary op first, us)) = Except.ok (e, rest)) :
    ∃ used, ts = used ++ rest ∧ IsOperand (t :: used) e (peek rest) := by
  obtain ⟨⟨first, middle⟩, hFirst, hRest⟩ := bind_ok h
  obtain ⟨former, rfl, hFormer⟩ := hFuel.expression hFirst
  by_cases hRoot : op = .root ∧ startsOperand (peek middle) = true
  · simp only [if_pos hRoot] at hRest
    obtain ⟨⟨second, end'⟩, hSecond, hLast⟩ := bind_ok hRest
    cases hLast
    obtain ⟨latter, rfl, hLatter⟩ := hFuel.expression hSecond
    obtain ⟨rfl, hStarts⟩ := hRoot
    rw [peek_append] at hFormer hStarts
    exact ⟨former ++ latter, by rw [List.append_assoc], .root hKind hPuts hFormer hStarts hLatter⟩
  · simp only [if_neg hRoot] at hRest
    cases hRest
    refine ⟨former, rfl, .unary hKind hPuts hFormer fun hOp => ?_⟩
    exact Bool.eq_false_iff.mpr fun hStarts => hRoot ⟨hOp, hStarts⟩

/-- Step for an operand. Each test that the reader makes is the premise of a
rule. -/
theorem operand_succ (hFuel : Lawful fuel) {e : Expr}
    (h : Reading.operand (fuel + 1) ts = .ok (e, rest)) :
    ∃ used, ts = used ++ rest ∧ IsOperand used e (peek rest) := by
  rw [Reading.operand] at h
  have hTokens : (peek ts).kind ≠ .finish → ts = peek ts :: ts.tail := eq_cons_of_kind rfl
  generalize peek ts = t at h hTokens
  generalize ts.tail = tail at h hTokens
  dsimp only at h
  split at h
  · next hKind =>
      obtain ⟨number, hNumber, hLast⟩ := bind_ok h
      cases hLast
      exact ⟨[t], hTokens (by simp [hKind]), .number hKind hNumber⟩
  · next hKind =>
      rw [hTokens (by simp [hKind])]
      split at h
      · next hOpens =>
          obtain ⟨⟨args, middle⟩, hArguments, hLast⟩ := bind_ok h
          cases hLast
          obtain ⟨used, hTail, hUsed⟩ := hFuel.arguments hArguments
          have hOpening := eq_cons_of_kind (kind_of_isOperator hOpens) (by decide)
          refine ⟨t :: peek tail :: used, ?_, .call hKind hOpens hUsed⟩
          rw [hOpening, hTail]
          rfl
      · next hApart =>
          cases h
          exact ⟨[t], rfl, .name hKind (Bool.eq_false_iff.mpr hApart)⟩
  · next hKind =>
      rw [hTokens (by simp [hKind])]
      split at h
      · next hOpens =>
          obtain ⟨⟨inner, middle⟩, hInner, hLast⟩ := bind_ok h
          obtain ⟨after, hClose, hLast⟩ := bind_ok hLast
          cases hLast
          obtain ⟨closing, hCloses, rfl⟩ := closeParenthesis_ok hClose
          obtain ⟨used, rfl, hUsed⟩ := hFuel.expression hInner
          exact ⟨t :: (used ++ [closing]), by simp, .group hOpens hCloses hUsed⟩
      · split at h
        · next op power hPuts =>
            obtain ⟨used, rfl, hUsed⟩ := operand_prefixed hFuel hKind hPuts h
            exact ⟨t :: used, rfl, hUsed⟩
        · cases h
  · cases h

/-- Step for arguments: none at all, or a sequence. -/
theorem arguments_succ (hFuel : Lawful fuel) {args : List Expr}
    (h : Reading.arguments (fuel + 1) ts = .ok (args, rest)) :
    ∃ used, ts = used ++ rest ∧ AreArguments used args := by
  rw [Reading.arguments] at h
  split at h
  · next hCloses =>
      cases h
      exact ⟨[peek ts], eq_cons_of_kind (kind_of_isOperator hCloses) (by decide), .none hCloses⟩
  · obtain ⟨⟨es, middle⟩, hSequence, hLast⟩ := bind_ok h
    obtain ⟨after, hClose, hLast⟩ := bind_ok hLast
    cases hLast
    obtain ⟨closing, hCloses, rfl⟩ := closeParenthesis_ok hClose
    obtain ⟨used, rfl, hUsed⟩ := hFuel.sequence hSequence
    exact ⟨used ++ [closing], by simp, .some hUsed hCloses⟩

/-- Step for a sequence: one expression, or one and others behind a comma. -/
theorem sequence_succ (hFuel : Lawful fuel) {es : List Expr}
    (h : Reading.sequence (fuel + 1) ts = .ok (es, rest)) :
    ∃ used, ts = used ++ rest ∧ AreSequence used es (peek rest) := by
  rw [Reading.sequence] at h
  obtain ⟨⟨e, middle⟩, hFirst, hRest⟩ := bind_ok h
  obtain ⟨former, rfl, hFormer⟩ := hFuel.expression hFirst
  dsimp only at hRest
  split at hRest
  · next hComma =>
      obtain ⟨⟨others, after⟩, hOthers, hLast⟩ := bind_ok hRest
      cases hLast
      obtain ⟨latter, hTail, hLatter⟩ := hFuel.sequence hOthers
      have hDivides := eq_cons_of_kind (kind_of_isOperator hComma) (by decide)
      refine ⟨former ++ peek middle :: latter, ?_, .more hFormer hComma hLatter⟩
      rw [List.append_assoc, List.cons_append, ← hTail, ← hDivides]
  · next hEnds =>
      cases hRest
      exact ⟨former, rfl, .one hFormer (Bool.eq_false_iff.mpr hEnds)⟩

end Lawful

/-- The induction is on the budget: a reader calls the others with less. -/
theorem lawful (fuel : Nat) : Lawful fuel := by
  induction fuel with
  | zero => constructor <;> intros <;> contradiction
  | succ fuel ih =>
      exact ⟨ih.expression_succ, ih.extend_succ, ih.operand_succ, ih.arguments_succ,
        ih.sequence_succ⟩

end Reading

open Reading

/-- An expression is read from the front of some tokens exactly if the grammar
has it there. -/
theorem Expr.read_ok_iff {least : Rat} {ts rest : List Token} {e : Expr} :
    Expr.read least ts = .ok (e, rest) ↔
      ∃ used, ts = used ++ rest ∧ IsExpression least used e (peek rest) := by
  constructor
  · exact (lawful _).expression
  · rintro ⟨used, rfl, h⟩
    refine h.reads rfl ?_
    simp only [budget, List.length_append]
    omega

end Reckoner
