import Reckoner.Proofs.Grammar
import Reckoner.Proofs.Grouping
import Reckoner.Token.Lexicon

/-! Operands with operators between them. The binding powers, with their two
ways to break a tie, group them as the levels of the operators say. -/
namespace Reckoner

open Reading

namespace Operator

/-- All operators but the negation of truth values stand between two operands. -/
theorem infixBinding?_isSome_iff {op : Operator} :
    op.infixBinding?.isSome = true ↔ op ≠ .not := by
  cases op <;> simp [infixBinding?]

/-- The glyph of an operator is read as that operator. -/
theorem ofGlyph?_glyph (op : Operator) : ofGlyph? op.glyph = some op := by
  cases op <;> decide

end Operator

namespace Level

/-- How the operators of a level bind. -/
def binding : Level → Binding
  | assignment => ⟨2 / 10, 1 / 10, false⟩
  | logical => ⟨3 / 10, 4 / 10, true⟩
  | comparison => ⟨5 / 10, 6 / 10, true⟩
  | sum => ⟨1, 11 / 10, true⟩
  | product => ⟨2, 21 / 10, true⟩
  | power => ⟨4, 39 / 10, false⟩
  | dot => ⟨5, 51 / 10, true⟩

/-- The level of an operator says how it binds. -/
theorem binding_eq (op : Operator) (h : op.infixBinding?.isSome = true) :
    op.infixBinding? = some (op.level h).binding := by
  cases op with
  | not => cases h
  | _ => rfl

/-- An operator goes on in the right operand of another exactly if it may stand
there. -/
theorem admits_right_iff (inner outer : Level) :
    inner.binding.admits outer.binding.right = true ↔ inner.OnRight outer := by
  cases inner <;> cases outer <;> decide +kernel

/-- A context without demands admits every operator. -/
theorem admits_zero (level : Level) : level.binding.admits 0 = true := by
  cases level <;> decide +kernel

/-- Tighter levels have the greater powers. -/
theorem left_lt {a b : Level} (h : a.rank < b.rank) : a.binding.left < b.binding.left := by
  revert h
  cases a <;> cases b <;> decide +kernel

/-- What a context admits of an operator, it admits of one that is not looser. -/
theorem admits_of_rank_le {least : Rat} {a b : Level} (h : a.binding.admits least = true)
    (hRank : a.rank ≤ b.rank) : b.binding.admits least = true := by
  rcases Nat.eq_or_lt_of_le hRank with hSame | hLess
  · exact eq_of_rank_eq hSame ▸ h
  · have hLeast : least ≤ a.binding.left := by
      unfold Binding.admits at h
      split at h
      · exact of_decide_eq_true h
      · exact Rat.le_of_lt (of_decide_eq_true h)
    have hLeft : least < b.binding.left := Std.lt_of_le_of_lt hLeast (left_lt hLess)
    unfold Binding.admits
    split
    · exact decide_eq_true (Rat.le_of_lt hLeft)
    · exact decide_eq_true hLeft

end Level

/-- One or more expressions with commas between them, up to the token `closing`. -/
inductive AreListed : List Token → List Expr → Token → Prop
  | one {ts : List Token} {e : Expr} {closing : Token}
      (reads : Expr.read 0 (ts ++ [closing]) = .ok (e, [closing])) : AreListed ts [e] closing
  | more {ts us : List Token} {e : Expr} {es : List Expr} {comma closing : Token}
      (reads : Expr.read 0 (ts ++ [comma]) = .ok (e, [comma]))
      (divides : comma.isOperator "," = true) (others : AreListed us es closing) :
      AreListed (ts ++ comma :: us) (e :: es) closing

/-- Tokens that are one operand: a number, a name, a call, an expression in
parentheses, or one of these with signs before it. -/
inductive IsTerm : List Token → Expr → Prop
  | number {t : Token} {value : Float} (kind : t.kind = .number)
      (spells : Literal.value? t.text = some value) : IsTerm [t] (.number value t.text)
  | name {t : Token} (kind : t.kind = .name) : IsTerm [t] (.name t.text)
  | call {t opening closing : Token} (kind : t.kind = .name)
      (opens : opening.isOperator "(" = true) (closes : closing.isOperator ")" = true) :
      IsTerm [t, opening, closing] (.call t.text [])
  | callWith {t opening closing : Token} {ts : List Token} {args : List Expr}
      (kind : t.kind = .name) (opens : opening.isOperator "(" = true)
      (inner : AreListed ts args closing) (closes : closing.isOperator ")" = true) :
      IsTerm (t :: opening :: (ts ++ [closing])) (.call t.text args)
  | group {opening closing : Token} {ts : List Token} {e : Expr}
      (opens : opening.isOperator "(" = true)
      (reads : Expr.read 0 (ts ++ [closing]) = .ok (e, [closing]))
      (closes : closing.isOperator ")" = true) : IsTerm (opening :: (ts ++ [closing])) e
  | signed {t : Token} {op : Operator} {ts : List Token} {e : Expr} (kind : t.kind = .operator)
      (spells : Operator.ofGlyph? t.text = some op) (sign : op = .sub ∨ op = .add ∨ op = .not)
      (inner : IsTerm ts e) : IsTerm (t :: ts) (.unary op e)

/-- An operand with the tokens that it is written with. -/
structure Term where
  tokens : List Token
  value : Expr
  isTerm : IsTerm tokens value

/-- A token for an operator that stands between two operands. -/
structure Infix where
  token : Token
  op : Operator
  kind : token.kind = .operator
  spells : Operator.ofGlyph? token.text = some op
  binds : op.infixBinding?.isSome = true

def Infix.level (o : Infix) : Level := o.op.level o.binds

/-- The tokens of operands with operators between them. -/
def chain (first : Term) (rest : List (Infix × Term)) : List Token :=
  first.tokens ++ rest.flatMap fun link => link.1.token :: link.2.tokens

/-- What the reader makes of the token: it binds as its level says and combines
the operands. -/
theorem Infix.joint?_eq (o : Infix) : joint? o.token = some ⟨o.level.binding, .binary o.op⟩ := by
  simp [joint?, o.kind, o.spells, Level.binding_eq o.op o.binds, Infix.level]

theorem isOperator_of_joint? {t : Token} {joint : Joint} (h : joint? t = some joint) :
    t.isOperator "(" = false := by
  rw [Bool.eq_false_iff]
  intro hOpens
  rw [joint?, kind_of_isOperator hOpens, text_of_isOperator hOpens] at h
  cases h

/-- Nothing joins more to an operand with a sign before the sign is applied. -/
theorem not_admits_prefix {t : Token} {joint : Joint} (h : joint? t = some joint) :
    joint.binding.admits 20 = false := by
  rcases joint?_cases h with ⟨op, b, -, -, hBinding, rfl⟩ | ⟨op, -, -, rfl⟩
  · cases op <;> cases hBinding <;> decide +kernel
  · exact show Binding.admits ⟨2 / 10, 0, false⟩ 20 = false by decide +kernel

theorem isExpression_of_read {ts : List Token} {e : Expr} {t : Token}
    (h : Expr.read 0 (ts ++ [t]) = .ok (e, [t])) : IsExpression 0 ts e t := by
  obtain ⟨used, hUsed, hInner⟩ := Expr.read_ok_iff.mp h
  rw [List.append_cancel_right hUsed]
  exact hInner

/-- The arguments of a call, each read up to its comma. -/
theorem AreListed.areSequence {ts : List Token} {es : List Expr} {closing : Token}
    (h : AreListed ts es closing) (hCloses : closing.isOperator ")" = true) :
    AreSequence ts es closing := by
  induction h with
  | one reads =>
      refine .one (isExpression_of_read reads) ?_
      simp [Token.isOperator, text_of_isOperator hCloses]
  | more reads divides others ih =>
      exact .more (isExpression_of_read reads) divides (ih hCloses)

/-- A term is an operand of the grammar. A sign before it binds so tightly that
nothing comes between them. -/
theorem IsTerm.isOperand {ts : List Token} {e : Expr} (h : IsTerm ts e) {next : Token}
    (hNext : next.isOperator "(" = false) : IsOperand ts e next := by
  induction h with
  | number kind spells => exact .number kind (by rw [literal, spells])
  | name kind => exact .name kind hNext
  | call kind opens closes => exact .call kind opens (.none closes)
  | callWith kind opens inner closes =>
      exact .call kind opens (.some (inner.areSequence closes) closes)
  | group opens reads closes => exact .group opens closes (isExpression_of_read reads)
  | @signed t op ts e kind spells sign inner ih =>
      have hPuts : prefixed? t = some (op, 20) := by
        rcases sign with rfl | rfl | rfl <;> simp [prefixed?, spells, Operator.prefixPower?]
      have hInner : IsExpression 20 ts e next :=
        ih.isExpression fun _ hJoint => not_admits_prefix hJoint
      refine .unary kind hPuts hInner fun hRoot => ?_
      rcases sign with rfl | rfl | rfl <;> cases hRoot

namespace Grouping

def tokens : Grouping Term Infix → List Token
  | leaf a => a.tokens
  | node op left right => left.tokens ++ op.token :: right.tokens

def expr : Grouping Term Infix → Expr
  | leaf a => a.value
  | node op left right => .binary op.op left.expr right.expr

/-- The tokens of a grouping do not depend on how it is grouped. -/
theorem tokens_eq_chain (g : Grouping Term Infix) : g.tokens = chain g.first g.links := by
  induction g with
  | leaf a => simp [tokens, chain, first, links]
  | node op left right ihLeft ihRight => simp [tokens, ihLeft, ihRight, chain, first, links]

/-- A well-grouped tree is read, and then the reader goes on after it. The root
must be admitted, and what follows must not belong into a right operand of the
tree. -/
theorem isExpression {g : Grouping Term Infix} (hg : g.WellGrouped Infix.level) {least : Rat}
    (hRoot : g.Root fun o => o.level.binding.admits least = true) {us : List Token} {e : Expr}
    {next : Token} (hNext : (Reading.first us next).isOperator "(" = false)
    (hSpine : g.Spine fun o => ∀ joint, joint? (Reading.first us next) = some joint →
      joint.binding.admits o.level.binding.right = false)
    (hRest : Extends least g.expr us e next) : IsExpression least (g.tokens ++ us) e next := by
  induction g generalizing least us e next with
  | leaf a => exact .mk (a.isTerm.isOperand hNext) hRest
  | node op left right ihLeft ihRight =>
      obtain ⟨hLeft, hRight, hWellLeft, hWellRight⟩ := hg
      obtain ⟨hEnds, hSpineRight⟩ := hSpine
      have hRightOperand : IsExpression op.level.binding.right (right.tokens ++ []) right.expr
          (Reading.first us next) := by
        refine ihRight hWellRight ?_ hNext hSpineRight (.stop hEnds)
        exact hRight.mono fun _ h => (Level.admits_right_iff _ _).mpr h
      rw [List.append_nil] at hRightOperand
      have hJoins : Extends least left.expr (op.token :: (right.tokens ++ us)) e next :=
        .join op.joint?_eq hRoot hRightOperand hRest
      rw [tokens, List.append_assoc]
      refine ihLeft hWellLeft ?_ (isOperator_of_joint? op.joint?_eq) ?_ hJoins
      · exact hLeft.mono fun _ h => Level.admits_of_rank_le hRoot h.rank_le
      · refine (hWellLeft.spine hLeft).mono fun inner hInner joint hJoint => ?_
        cases op.joint?_eq.symm.trans hJoint
        rw [Bool.eq_false_iff, ne_eq, Level.admits_right_iff]
        exact Level.onLeft_iff_not_onRight.mp hInner

/-- A whole grouping, up to the end of the text. -/
theorem read_tokens {g : Grouping Term Infix} (hg : g.WellGrouped Infix.level) (n : Nat) :
    Expr.read 0 (g.tokens ++ [Token.finish n]) = .ok (g.expr, [Token.finish n]) := by
  have hStop (least : Rat) (joint : Joint) (h : joint? (Token.finish n) = some joint) :
      joint.binding.admits least = false := nomatch h
  have hWhole : IsExpression 0 (g.tokens ++ []) g.expr (Token.finish n) := by
    refine isExpression hg ?_ rfl ?_ (.stop (hStop 0))
    · exact root_of_forall (fun o => o.level.admits_zero) g
    · exact spine_of_forall (fun o => hStop o.level.binding.right) g
  rw [List.append_nil] at hWhole
  exact Expr.read_ok_iff.mpr ⟨g.tokens, rfl, hWhole⟩

end Grouping

/-- What can be read in the middle of a text can be read at its front. -/
theorem Expr.readFirst_of_read {least : Rat} {ts : List Token} {r : Expr × List Token}
    (h : Expr.read least ts = .ok r) : Expr.readFirst least ts = .ok r := by
  obtain ⟨e, rest⟩ := r
  obtain ⟨used, rfl, hUsed⟩ := Expr.read_ok_iff.mp h
  have hFinish : (peek (used ++ rest)).isFinish = false := (hUsed.leads rest).not_finish
  rw [readFirst, if_neg (Bool.eq_false_iff.mp hFinish), h]

/-- Operands with operators between them, up to the end of the text, are read as
one expression. It is the one way to group the operands by the levels of the
operators. -/
theorem readFirst_chain (first : Term) (rest : List (Infix × Term)) (n : Nat) :
    ∃ g : Grouping Term Infix,
      (g.first = first ∧ g.links = rest ∧ g.WellGrouped Infix.level) ∧
      (∀ g' : Grouping Term Infix, g'.first = first → g'.links = rest →
        g'.WellGrouped Infix.level → g' = g) ∧
      Expr.readFirst 0 (chain first rest ++ [Token.finish n]) = .ok (g.expr, [Token.finish n]) := by
  let g := Grouping.build Infix.level (.leaf first) rest
  have hFirst : g.first = first := Grouping.first_build Infix.level (.leaf first) rest
  have hLinks : g.links = rest := Grouping.links_build Infix.level (.leaf first) rest
  have hLeaf : (Grouping.leaf first).WellGrouped Infix.level := trivial
  have hWell : g.WellGrouped Infix.level := Grouping.wellGrouped_build Infix.level hLeaf rest
  refine ⟨g, ⟨hFirst, hLinks, hWell⟩, ?_, ?_⟩
  · rintro g' rfl rfl hWell'
    exact (Grouping.build_links Infix.level hWell').symm
  · have hRead := Grouping.read_tokens hWell n
    rw [g.tokens_eq_chain, hFirst, hLinks] at hRead
    exact Expr.readFirst_of_read hRead

/-- The sign of an operator in a text, from an offset on. -/
def Infix.sign (op : Operator) (h : op ≠ .not) (start : Nat) : Infix where
  token := ⟨.operator, op.glyph, start, start + op.glyph.length⟩
  op := op
  kind := rfl
  spells := op.ofGlyph?_glyph
  binds := Operator.infixBinding?_isSome_iff.mpr h

/-- A name of one letter. -/
def Term.letter (name : String) (start : Nat) : Term where
  tokens := [⟨.name, name, start, start + 1⟩]
  value := .name name
  isTerm := .name rfl

/-- A name of one letter with a minus before it. -/
def Term.negated (name : String) (start : Nat) : Term where
  tokens := [⟨.operator, "-", start, start + 1⟩, ⟨.name, name, start + 1, start + 2⟩]
  value := .unary .sub (.name name)
  isTerm := .signed rfl rfl (.inl rfl) (.name rfl)

/-- The grouping of `a=-b+c*a^b^-c-a<b`: from the left where levels are equal, except for
powers. -/
def mixed : Grouping Term Infix :=
  .node (.sign .assign (by decide) 1) (.leaf (.letter "a" 0))
    (.node (.sign .lt (by decide) 15)
      (.node (.sign .sub (by decide) 13)
        (.node (.sign .add (by decide) 4) (.leaf (.negated "b" 2))
          (.node (.sign .mul (by decide) 6) (.leaf (.letter "c" 5))
            (.node (.sign .pow (by decide) 8) (.leaf (.letter "a" 7))
              (.node (.sign .pow (by decide) 10) (.leaf (.letter "b" 9))
                (.leaf (.negated "c" 11))))))
        (.leaf (.letter "a" 14)))
      (.leaf (.letter "b" 16)))

/-- Five levels in one text: assignment, comparison, sum, product and power,
with signs before operands. -/
theorem readFirst_chain_mixed :
    tokenize "a=-b+c*a^b^-c-a<b" = chain mixed.first mixed.links ++ [Token.finish 17] ∧
    Expr.readFirst 0 (tokenize "a=-b+c*a^b^-c-a<b") = .ok
      (.binary .assign (.name "a") (.binary .lt
        (.binary .sub
          (.binary .add (.unary .sub (.name "b")) (.binary .mul (.name "c")
            (.binary .pow (.name "a") (.binary .pow (.name "b") (.unary .sub (.name "c"))))))
          (.name "a"))
        (.name "b")), [Token.finish 17]) := by
  have hTokens : tokenize "a=-b+c*a^b^-c-a<b" =
      chain mixed.first mixed.links ++ [Token.finish 17] := by decide +kernel
  have hWell : mixed.WellGrouped Infix.level := by
    simp only [mixed, Grouping.WellGrouped, Grouping.Root]
    decide
  obtain ⟨g, -, hUnique, hRead⟩ := readFirst_chain mixed.first mixed.links 17
  obtain rfl := hUnique mixed rfl rfl hWell
  refine ⟨hTokens, ?_⟩
  rw [hTokens, hRead]
  rfl

end Reckoner
