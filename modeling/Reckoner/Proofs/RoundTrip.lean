import Reckoner.Program
import Reckoner.Proofs.Precedence
import Reckoner.Proofs.Printing

/-! What was written out is read back. At each point where a tree ends, the
reader stops, because the token that follows cannot belong to the tree. -/
namespace Reckoner

open Reading

/-- A token that ends an expression: it joins nothing to it and begins no
arguments. -/
structure Token.Parts (t : Token) : Prop where
  joint : joint? t = none
  apart : t.isOperator "(" = false

/-- Any sign that is neither the glyph of an operator nor an opening parenthesis
ends an expression. -/
theorem Token.parts_of_isOperator {t : Token} {text : String} (h : t.isOperator text = true)
    (hText : Operator.ofGlyph? text = none) (hOpening : text ≠ "(") : t.Parts where
  joint := by
    rw [joint?, kind_of_isOperator h, text_of_isOperator h, hText]
    rfl
  apart := by
    rw [Token.isOperator, text_of_isOperator h]
    simp [hOpening]

/-- Before such a token an operand is an expression, whatever power the context
asks for. -/
theorem Reading.IsOperand.isExpression_of_parts {ts : List Token} {e : Expr} {next : Token}
    (h : IsOperand ts e next) (hNext : next.Parts) (least : Rat) : IsExpression least ts e next :=
  h.isExpression fun _ hJoint => nomatch hNext.joint.symm.trans hJoint

namespace Expr

mutual

/-- What is written out is an operand, because every operation stands in
parentheses. The power of the context does not matter then. -/
theorem Written.isOperand {e : Expr} {ts : List Token} (h : e.Written ts) {next : Token}
    (hNext : next.isOperator "(" = false) : IsOperand ts e next := by
  match h with
  | .number kind reads spells =>
      subst reads
      exact .number kind (by rw [literal, spells])
  | .name names =>
      obtain ⟨kind, rfl⟩ := names
      exact .name kind hNext
  | @Written.unary opening t closing op e ts opens spells before operand closes =>
      have hParts : closing.Parts := Token.parts_of_isOperator closes rfl (by decide)
      obtain ⟨power, hPower⟩ := Option.isSome_iff_exists.mp before
      have hPuts : prefixed? t = some (op, power) := by simp [prefixed?, spells.text, hPower]
      have hStarts : startsOperand closing = false := by
        simp [startsOperand, kind_of_isOperator closes, Token.isOperator, text_of_isOperator closes]
      have hOperand : IsExpression power ts e closing :=
        (operand.isOperand hParts.apart).isExpression_of_parts hParts power
      have hInner : IsOperand (t :: ts) (.unary op e) closing :=
        .unary spells.kind hPuts hOperand fun _ => hStarts
      exact .group opens closes (hInner.isExpression_of_parts hParts 0)
  | @Written.binary opening t closing op a b ts us opens left spells between right closes =>
      have hParts : closing.Parts := Token.parts_of_isOperator closes rfl (by decide)
      let o : Infix := ⟨t, op, spells.kind, spells.text, between⟩
      have hRight : IsExpression o.level.binding.right us b closing :=
        (right.isOperand hParts.apart).isExpression_of_parts hParts _
      have hJoins : Extends 0 a (t :: (us ++ [])) (.binary op a b) closing :=
        .join o.joint?_eq o.level.admits_zero hRight
          (.stop fun _ h => nomatch hParts.joint.symm.trans h)
      rw [List.append_nil] at hJoins
      have hInner : IsExpression 0 (ts ++ t :: us) (.binary op a b) closing :=
        .mk (left.isOperand (isOperator_of_joint? o.joint?_eq)) hJoins
      have hGroup : IsOperand (opening :: (ts ++ t :: us ++ [closing])) (.binary op a b) next :=
        .group opens closes hInner
      rwa [List.append_assoc, List.cons_append] at hGroup
  | @Written.call t opening closing callee args ts names opens inner closes =>
      obtain ⟨kind, rfl⟩ := names
      rcases inner.areSequence closes with ⟨rfl, rfl⟩ | hSequence
      · exact .call kind opens (.none closes)
      · exact .call kind opens (.some hSequence closes)
  | @Written.group opening closing e ts opens inner closes =>
      have hParts : closing.Parts := Token.parts_of_isOperator closes rfl (by decide)
      exact .group opens closes ((inner.isOperand hParts.apart).isExpression_of_parts hParts 0)

/-- Arguments that are written out form a sequence, unless there are none. -/
theorem WrittenAll.areSequence {es : List Expr} {ts : List Token} (h : WrittenAll es ts)
    {closing : Token} (closes : closing.isOperator ")" = true) :
    es = [] ∧ ts = [] ∨ AreSequence ts es closing := by
  match h with
  | .nil => exact .inl ⟨rfl, rfl⟩
  | .one inner =>
      have hParts : closing.Parts := Token.parts_of_isOperator closes rfl (by decide)
      refine .inr (.one ((inner.isOperand hParts.apart).isExpression_of_parts hParts 0) ?_)
      simp [Token.isOperator, text_of_isOperator closes]
  | .more inner divides others =>
      have hParts := Token.parts_of_isOperator divides rfl (by decide)
      rcases others.areSequence closes with ⟨hNil, _⟩ | hSequence
      · cases hNil
      · exact .inr (.more ((inner.isOperand hParts.apart).isExpression_of_parts hParts 0) divides
          hSequence)

end

/-- Its first token shows that an expression begins. -/
theorem Written.leads {e : Expr} {ts : List Token} (h : e.Written ts) (rest : List Token) :
    Leads (peek (ts ++ rest)) := by
  have hFinish : (Token.finish 0).isOperator "(" = false := rfl
  exact (h.isOperand hFinish).leads rest

/-- An expression is read back wherever the next token ends it. -/
theorem Written.read {e : Expr} {ts : List Token} (h : e.Written ts) {rest : List Token}
    (hRest : (peek rest).Parts) : Expr.read 0 (ts ++ rest) = .ok (e, rest) :=
  read_ok_iff.mpr ⟨ts, rfl, (h.isOperand hRest.apart).isExpression_of_parts hRest 0⟩

end Expr

theorem Reading.kind_of_isKeyword {t : Token} {text : String} (h : t.isKeyword text = true) :
    t.kind = .keyword := by
  simp only [Token.isKeyword, Bool.and_eq_true, beq_iff_eq] at h
  exact h.1

theorem Reading.text_of_isKeyword {t : Token} {text : String} (h : t.isKeyword text = true) :
    t.text = text := by
  simp only [Token.isKeyword, Bool.and_eq_true, beq_iff_eq] at h
  exact h.2

/-- A token that goes on neither with semicolons nor with a conditional. -/
structure Token.Settles (t : Token) : Prop where
  pause : t.isOperator ";" = false
  turn : t.isKeyword "else" = false

/-- A token with which a statement begins. -/
structure Token.Starts (t : Token) : Prop extends t.Settles where
  closing : t.isOperator "\x7d" = false
  finish : t.isFinish = false

theorem Token.settles_of_isOperator {t : Token} {text : String} (h : t.isOperator text = true)
    (hText : text ≠ ";") : t.Settles where
  pause := by
    rw [Token.isOperator, text_of_isOperator h]
    simp [hText]
  turn := by simp [Token.isKeyword, kind_of_isOperator h]

/-- All keywords but the one for a second branch begin a statement. -/
theorem Token.starts_of_isKeyword {t : Token} {text : String} (h : t.isKeyword text = true)
    (hText : text ≠ "else") : t.Starts where
  pause := isOperator_of_kind (kind_of_isKeyword h) (by decide) ";"
  turn := by simp [Token.isKeyword, text_of_isKeyword h, hText]
  closing := isOperator_of_kind (kind_of_isKeyword h) (by decide) "\x7d"
  finish := by simp [Token.isFinish, kind_of_isKeyword h]

/-- Whatever begins an expression begins a statement. -/
theorem Token.starts_of_leads {t : Token} (h : Leads t) : t.Starts where
  pause := h.not_operator rfl (by decide)
  turn := by simp [Token.isKeyword, h.not_keyword]
  closing := h.not_operator rfl (by decide)
  finish := h.not_finish

theorem skipSemicolons_of_pause {ts : List Token} (h : (peek ts).isOperator ";" = false) :
    skipSemicolons ts = ts := by
  cases ts with
  | nil => rfl
  | cons t ts => simp [skipSemicolons, show t.isOperator ";" = false from h]

/-- Semicolons are passed over whatever their number. Induction over them. -/
theorem AreSemicolons.skip {us : List Token} (hus : AreSemicolons us) (rest : List Token) :
    skipSemicolons (us ++ rest) = skipSemicolons rest := by
  induction us with
  | nil => rfl
  | cons t us ih =>
      have hFirst := hus t List.mem_cons_self
      rw [skipSemicolons, List.cons_append, List.dropWhile_cons, if_pos hFirst]
      exact ih fun other hOther => hus other (List.mem_cons_of_mem t hOther)

/-- Passing over semicolons stops at the first token that is none. -/
theorem skipSemicolons_append {us rest : List Token} (hus : AreSemicolons us)
    (h : (peek rest).isOperator ";" = false) : skipSemicolons (us ++ rest) = rest := by
  rw [hus.skip, skipSemicolons_of_pause h]

namespace Statement

/-- A block shows its brace first. -/
theorem Braced.opens {body : List Statement} {ts : List Token} (h : Braced body ts)
    (rest : List Token) : (peek (ts ++ rest)).isOperator "\x7b" = true := by
  cases h with
  | mk opens inner closes => exact opens

/-- Every statement that is written out shows at its first token that it begins,
one case for each form. -/
theorem Written.starts {s : Statement} {ts : List Token} (h : s.Written ts) (rest : List Token) :
    (peek (ts ++ rest)).Starts := by
  have hWord {t : Token} {us : List Token} {text : String} (h : t.isKeyword text = true)
      (hText : text ≠ "else") : (peek (t :: us ++ rest)).Starts :=
    Token.starts_of_isKeyword h hText
  cases h with
  | expression plain inner => exact Token.starts_of_leads (inner.leads rest)
  | call inner => exact Token.starts_of_leads (inner.leads rest)
  | block inner =>
      have hOpens := inner.opens rest
      refine ⟨Token.settles_of_isOperator hOpens (by decide), ?_, ?_⟩
      · simp [Token.isOperator, text_of_isOperator hOpens]
      · simp [Token.isFinish, kind_of_isOperator hOpens]
  | conditional begins _ => exact hWord begins (by decide)
  | whileLoop begins _ _ => exact hWord begins (by decide)
  | breakLoop begins => exact hWord begins (by decide)
  | continueLoop begins => exact hWord begins (by decide)
  | returnValue begins _ => exact hWord begins (by decide)
  | endRun begins _ => exact hWord begins (by decide)
  | letVar begins _ => exact hWord begins (by decide)
  | letInit begins _ _ _ => exact hWord begins (by decide)
  | constVar begins _ _ _ => exact hWord begins (by decide)
  | @define kind _ _ _ _ _ _ _ _ _ begins _ _ _ _ _ =>
      exact hWord begins (by cases kind <;> decide)

/-- What follows a statement and its semicolons does not belong to it. -/
theorem WrittenAll.settles {body : List Statement} {ts : List Token} (h : WrittenAll body ts)
    {rest : List Token} (hRest : (peek rest).Settles) : (peek (ts ++ rest)).Settles := by
  cases h with
  | nil => exact hRest
  | cons first _ _ _ =>
      rw [List.append_assoc]
      exact (first.starts _).toSettles

end Statement

/-! The readers of statements, by the token that comes next. -/

namespace Reading

variable {fuel : Nat} {t : Token} {ts us rest : List Token} {s : Statement}
  {body : List Statement}

/-- An expression as a statement. -/
theorem statement_of_leads (h : Leads (peek ts)) (hSimple : simple ts = .ok (s, us))
    (hSkip : skipSemicolons us = rest) : statement (fuel + 1) ts = .ok (s, rest) := by
  have hOpens : (peek ts).isOperator "\x7b" = false := h.not_operator rfl (by decide)
  rw [statement, ← hSkip]
  rcases h with h | h | ⟨h, _⟩ <;>
    simp only [h, hOpens, Bool.false_eq_true, if_false, hSimple] <;> rfl

/-- A statement with a keyword, given how the phrase after it is read. -/
theorem statement_of_word {text : String} (h : t.isKeyword text = true)
    (hPhrase : phrase fuel t ts = .ok (s, us)) (hSkip : skipSemicolons us = rest) :
    statement (fuel + 1) (t :: ts) = .ok (s, rest) := by
  rw [statement, ← hSkip]
  simp only [peek_cons, kind_of_isKeyword h, List.tail_cons, hPhrase]
  rfl

/-- A block as a statement. -/
theorem statement_of_opening (h : (peek ts).isOperator "\x7b" = true)
    (hBlock : block fuel ts = .ok (body, us)) (hSkip : skipSemicolons us = rest) :
    statement (fuel + 1) ts = .ok (.block body, rest) := by
  rw [statement, ← hSkip]
  simp only [kind_of_isOperator h, h, if_true, hBlock]
  rfl

/-- A block as a body. One step of the budget goes to the choice. -/
theorem body_of_opening (hFuel : 0 < fuel) (h : (peek ts).isOperator "\x7b" = true)
    (hBlock : block (fuel - 1) ts = .ok (body, us)) :
    Reading.body fuel ts = .ok (.block body, us) := by
  obtain ⟨fuel, rfl⟩ := Nat.exists_eq_add_of_le' hFuel
  have hPause := (Token.settles_of_isOperator h (by decide)).pause
  rw [Nat.add_sub_cancel] at hBlock
  rw [Reading.body]
  simp only [skipSemicolons_of_pause hPause, h, if_true, hBlock]
  rfl

/-- A subroutine, given how its heading and its block are read. -/
theorem subroutine_of_signature {kind : Subroutine.Kind} {name : String} {params : List String}
    (hFuel : 0 < fuel) (hSignature : signature ts = .ok ((name, params), us))
    (hBlock : block (fuel - 1) us = .ok (body, rest)) :
    subroutine fuel kind ts = .ok (.define kind name params body, rest) := by
  obtain ⟨fuel, rfl⟩ := Nat.exists_eq_add_of_le' hFuel
  rw [Nat.add_sub_cancel] at hBlock
  rw [subroutine]
  simp only [bind, Except.bind, hSignature, hBlock]

/-- A condition and a block after it. -/
theorem condition_and_body {test : Expr} (hFuel : 0 < fuel) (condition : test.Written ts)
    (braced : Statement.Braced body us)
    (hBlock : block (fuel - 1) (us ++ rest) = .ok (body, rest)) :
    Expr.read 0 (ts ++ (us ++ rest)) = .ok (test, us ++ rest) ∧
      Reading.body fuel (us ++ rest) = .ok (.block body, rest) := by
  have hOpens : (peek (us ++ rest)).isOperator "\x7b" = true := braced.opens rest
  exact ⟨condition.read (Token.parts_of_isOperator hOpens rfl (by decide)),
    body_of_opening hFuel hOpens hBlock⟩

theorem simple_of_read {e : Expr} (h : e.isCall = false) (hRead : Expr.read 0 ts = .ok (e, us)) :
    simple ts = .ok (.expression e, us) := by
  rw [simple, hRead]
  cases e with
  | call name args => cases h
  | _ => rfl

/-- A call by itself becomes a call statement, which keeps the two forms of
trees apart. -/
theorem simple_of_read_call {name : String} {args : List Expr}
    (hRead : Expr.read 0 ts = .ok (.call name args, us)) :
    simple ts = .ok (.call name args, us) := by
  rw [simple, hRead]
  rfl

theorem expectName_cons {name : String} (h : t.Names name) :
    expectName (t :: ts) = .ok (name, ts) := by
  obtain ⟨hKind, rfl⟩ := h
  exact if_pos hKind

theorem expectOperator_cons {text : String} (h : t.isOperator text = true) :
    expectOperator text (t :: ts) = .ok ts := if_pos h

end Reading

/-- What stands between the parentheses of a signature. -/
theorem NamesWritten.reads {params : List String} {ts : List Token} (h : NamesWritten params ts)
    (hParams : params ≠ []) {rest : List Token} (hRest : (peek rest).isOperator "," = false)
    {fuel : Nat} (hFuel : ts.length ≤ fuel) : names fuel (ts ++ rest) = .ok (params, rest) := by
  induction h generalizing fuel with
  | nil => exact absurd rfl hParams
  | one hName =>
      cases fuel with
      | zero => cases hFuel
      | succ fuel =>
          rw [names, List.singleton_append, expectName_cons hName]
          exact if_neg (Bool.eq_false_iff.mp hRest)
  | @more t comma name other others ts hName divides _ ih =>
      cases fuel with
      | zero => cases hFuel
      | succ fuel =>
          rw [List.length_cons, List.length_cons] at hFuel
          have hOthers : names fuel (ts ++ rest) = .ok (other :: others, rest) :=
            ih (List.cons_ne_nil _ _) (by omega)
          rw [names, List.cons_append, List.cons_append, expectName_cons hName]
          simp only [bind, Except.bind, peek_cons, divides, if_true, List.tail_cons, hOthers]

theorem NamesWritten.peek_kind {params : List String} {ts : List Token}
    (h : NamesWritten params ts) (hParams : params ≠ []) (rest : List Token) :
    (peek (ts ++ rest)).kind = .name := by
  cases h with
  | nil => exact absurd rfl hParams
  | one hName => exact hName.kind
  | more hName _ _ => exact hName.kind

/-- A heading with any number of parameters, none included. -/
theorem signature_reads {t opening closing : Token} {name : String} {params : List String}
    {ts : List Token} (hName : t.Names name) (opens : opening.isOperator "(" = true)
    (lists : NamesWritten params ts) (closes : closing.isOperator ")" = true) (rest : List Token) :
    signature (t :: opening :: (ts ++ closing :: rest)) = .ok ((name, params), rest) := by
  rw [signature, expectName_cons hName]
  simp only [bind, Except.bind, expectOperator_cons opens]
  by_cases hParams : params = []
  · subst hParams
    cases lists
    simp only [List.nil_append, peek_cons, closes, if_true, List.tail_cons]
  · have hFirst : (peek (ts ++ closing :: rest)).isOperator ")" = false :=
      isOperator_of_kind (lists.peek_kind hParams _) (by decide) ")"
    have hComma : (peek (closing :: rest)).isOperator "," = false := by
      simp [peek_cons, Token.isOperator, text_of_isOperator closes]
    have hBudget : ts.length ≤ budget (ts ++ closing :: rest) := by
      simp only [budget, List.length_append]
      omega
    simp only [hFirst, Bool.false_eq_true, if_false, lists.reads hParams hComma hBudget,
      expectOperator_cons closes]

theorem peek_semicolons {us : List Token} (h : AreSemicolons us) (hus : us ≠ [])
    (rest : List Token) : (peek (us ++ rest)).isOperator ";" = true := by
  cases us with
  | nil => exact absurd rfl hus
  | cons t us => exact h t List.mem_cons_self

/-- The semicolon after a statement shows that no value is there. -/
theorem Expr.WrittenIfAny.reads {value : Option Expr} {ts : List Token}
    (h : Expr.WrittenIfAny value ts) {us : List Token} (hPause : AreSemicolons us)
    (hPauses : us ≠ []) (rest : List Token) :
    optionalExpression (ts ++ (us ++ rest)) = .ok (value, us ++ rest) := by
  have hNext := peek_semicolons hPause hPauses rest
  cases h with
  | none =>
      simp only [optionalExpression, List.nil_append, hNext, Bool.or_true, Bool.true_or, if_true]
  | some inner =>
      have hLeads : Leads (peek (ts ++ (us ++ rest))) := inner.leads _
      have hPause : (peek (ts ++ (us ++ rest))).isOperator ";" = false :=
        hLeads.not_operator rfl (by decide)
      have hClosing : (peek (ts ++ (us ++ rest))).isOperator "\x7d" = false :=
        hLeads.not_operator rfl (by decide)
      have hKeyword : ((peek (ts ++ (us ++ rest))).kind == .keyword) = false :=
        beq_false_of_ne hLeads.not_keyword
      have hRead := inner.read (Token.parts_of_isOperator hNext rfl (by decide))
      simp only [optionalExpression, hLeads.not_finish, hKeyword, hPause, hClosing, Bool.or_self,
        Bool.false_eq_true, if_false, bind, Except.bind, hRead]

/-! What is written out is read. As with expressions, four steps of the budget
are enough for each token. -/

mutual

/-- A statement is read with the semicolons after it. The induction follows the
way it is written. -/
theorem Statement.Written.reads {s : Statement} {ts : List Token} (h : s.Written ts)
    {us rest : List Token} (hPause : AreSemicolons us) (hPauses : us ≠ [])
    (hRest : (peek rest).Settles) {fuel : Nat} (hFuel : 4 * ts.length + 2 ≤ fuel) :
    Reading.statement fuel (ts ++ (us ++ rest)) = .ok (s, rest) := by
  have hSkip : skipSemicolons (us ++ rest) = rest := skipSemicolons_append hPause hRest.pause
  have hParts : (peek (us ++ rest)).Parts :=
    Token.parts_of_isOperator (peek_semicolons hPause hPauses rest) rfl (by decide)
  match h, fuel with
  | _, 0 => omega
  | _, 1 => omega
  | .expression plain inner, fuel + 2 =>
      exact statement_of_leads (inner.leads _) (simple_of_read plain (inner.read hParts)) hSkip
  | .call inner, fuel + 2 =>
      exact statement_of_leads (inner.leads _) (simple_of_read_call (inner.read hParts)) hSkip
  | .block inner, fuel + 2 =>
      exact statement_of_opening (inner.opens _) (inner.reads (by omega) (us ++ rest)) hSkip
  | @Statement.Written.conditional word _ ts begins inner, fuel + 2 =>
      rw [List.length_cons] at hFuel
      obtain ⟨out, hRead, hOut⟩ :=
        inner.reads hPause hRest (show 4 * ts.length + 2 ≤ fuel by omega)
      rw [List.cons_append]
      refine statement_of_word begins ?_ hOut
      rw [phrase, text_of_isKeyword begins]
      exact hRead
  | @Statement.Written.whileLoop word test body ts vs begins condition inner, fuel + 2 =>
      simp only [List.length_cons, List.length_append] at hFuel
      obtain ⟨hTest, hBody⟩ := condition_and_body (show 0 < fuel by omega) condition inner
        (inner.reads (by omega) (us ++ rest))
      rw [List.cons_append, List.append_assoc]
      refine statement_of_word begins ?_ hSkip
      rw [phrase, text_of_isKeyword begins]
      simp only [bind, Except.bind, hTest, hBody]
  | .breakLoop begins, fuel + 2 =>
      rw [List.cons_append]
      refine statement_of_word begins ?_ hSkip
      rw [phrase, text_of_isKeyword begins]
      rfl
  | .continueLoop begins, fuel + 2 =>
      rw [List.cons_append]
      refine statement_of_word begins ?_ hSkip
      rw [phrase, text_of_isKeyword begins]
      rfl
  | .returnValue begins inner, fuel + 2 =>
      rw [List.cons_append]
      refine statement_of_word begins ?_ hSkip
      rw [phrase, text_of_isKeyword begins]
      simp only [bind, Except.bind, inner.reads hPause hPauses rest]
  | .endRun begins inner, fuel + 2 =>
      rw [List.cons_append]
      refine statement_of_word begins ?_ hSkip
      rw [phrase, text_of_isKeyword begins]
      simp only [bind, Except.bind, inner.reads hPause hPauses rest]
  | .letVar begins names, fuel + 2 =>
      have hEquates : (peek (us ++ rest)).isOperator "=" = false := by
        rw [Token.isOperator, text_of_isOperator (peek_semicolons hPause hPauses rest)]
        simp
      rw [List.cons_append, List.cons_append, List.nil_append]
      refine statement_of_word begins ?_ hSkip
      rw [phrase, text_of_isKeyword begins]
      simp only [Reading.letVar, bind, Except.bind, expectName_cons names, hEquates,
        Bool.false_eq_true, if_false]
  | .letInit begins names equates inner, fuel + 2 =>
      rw [List.cons_append, List.cons_append, List.cons_append]
      refine statement_of_word begins ?_ hSkip
      rw [phrase, text_of_isKeyword begins]
      simp only [Reading.letVar, bind, Except.bind, expectName_cons names, peek_cons, equates,
        if_true, List.tail_cons, inner.read hParts]
  | .constVar begins names equates inner, fuel + 2 =>
      rw [List.cons_append, List.cons_append, List.cons_append]
      refine statement_of_word begins ?_ hSkip
      rw [phrase, text_of_isKeyword begins]
      simp only [Reading.constVar, bind, Except.bind, expectName_cons names,
        expectOperator_cons equates, inner.read hParts]
  | @Statement.Written.define kind word t opening closing name params body ts vs begins names opens
      lists closes inner, fuel + 2 =>
      simp only [List.length_cons, List.length_append] at hFuel
      have hBody : Reading.subroutine fuel kind
          (t :: opening :: (ts ++ closing :: (vs ++ (us ++ rest)))) =
          .ok (.define kind name params body, us ++ rest) :=
        subroutine_of_signature (by omega) (signature_reads names opens lists closes _)
          (inner.reads (by omega) (us ++ rest))
      simp only [List.cons_append, List.append_assoc]
      refine statement_of_word begins ?_ hSkip
      rw [phrase, text_of_isKeyword begins]
      cases kind <;> exact hBody

/-- A conditional may already have taken the semicolons, in its search for a
second branch, so the result is stated up to them. -/
theorem Statement.Conditional.reads {s : Statement} {ts : List Token} (h : s.Conditional ts)
    {us rest : List Token} (hPause : AreSemicolons us) (hRest : (peek rest).Settles) {fuel : Nat}
    (hFuel : 4 * ts.length + 2 ≤ fuel) :
    ∃ out, Reading.conditional fuel (ts ++ (us ++ rest)) = .ok (s, out) ∧
      skipSemicolons out = rest := by
  match h, fuel with
  | _, 0 => omega
  | @Statement.Conditional.ifThen test yes ts vs condition branch, fuel + 1 =>
      rw [List.length_append] at hFuel
      have hSkip : skipSemicolons (us ++ rest) = rest := skipSemicolons_append hPause hRest.pause
      obtain ⟨hTest, hBody⟩ := condition_and_body (show 0 < fuel by omega) condition branch
        (branch.reads (by omega) (us ++ rest))
      refine ⟨rest, ?_, skipSemicolons_of_pause hRest.pause⟩
      rw [List.append_assoc, Reading.conditional]
      simp only [bind, Except.bind, hTest, hBody, hSkip, hRest.turn, Bool.false_eq_true, if_false]
  | @Statement.Conditional.ifElse test yes no word ts vs ws xs condition branch pause turns other,
      fuel + 1 =>
      simp only [List.length_append, List.length_cons] at hFuel
      obtain ⟨hTest, hBody⟩ := condition_and_body (show 0 < fuel by omega) condition branch
        (branch.reads (by omega) (ws ++ word :: (xs ++ (us ++ rest))))
      have hSkip : skipSemicolons (ws ++ word :: (xs ++ (us ++ rest))) =
          word :: (xs ++ (us ++ rest)) :=
        skipSemicolons_append pause (isOperator_of_kind (kind_of_isKeyword turns) (by decide) ";")
      obtain ⟨out, hOther, hOut⟩ :=
        other.reads hPause hRest (show 4 * xs.length + 1 ≤ fuel by omega)
      refine ⟨out, ?_, hOut⟩
      simp only [List.append_assoc, List.cons_append]
      rw [Reading.conditional]
      rcases hOther with ⟨hWord, hOther⟩ | ⟨hWord, hOther⟩ <;>
        simp only [bind, Except.bind, hTest, hBody, hSkip, peek_cons, turns, if_true,
          List.tail_cons, hWord, hOther, Bool.false_eq_true, if_false]

/-- The last branch of a conditional begins with a word if it is a conditional
again, and else with a brace. -/
theorem Statement.Alternative.reads {s : Statement} {ts : List Token} (h : s.Alternative ts)
    {us rest : List Token} (hPause : AreSemicolons us) (hRest : (peek rest).Settles) {fuel : Nat}
    (hFuel : 4 * ts.length + 1 ≤ fuel) :
    ∃ out,
      ((peek (ts ++ (us ++ rest))).isKeyword "if" = true ∧
          Reading.conditional fuel (ts ++ (us ++ rest)).tail = .ok (s, out) ∨
        (peek (ts ++ (us ++ rest))).isKeyword "if" = false ∧
          Reading.body fuel (ts ++ (us ++ rest)) = .ok (s, out)) ∧
      skipSemicolons out = rest := by
  match h with
  | .block inner =>
      have hOpens := inner.opens (us ++ rest)
      have hWord : (peek (ts ++ (us ++ rest))).isKeyword "if" = false := by
        simp [Token.isKeyword, kind_of_isOperator hOpens]
      have hBody := body_of_opening (show 0 < fuel by omega) hOpens
        (inner.reads (by omega) (us ++ rest))
      exact ⟨us ++ rest, .inr ⟨hWord, hBody⟩, skipSemicolons_append hPause hRest.pause⟩
  | @Statement.Alternative.conditional word _ ts begins inner =>
      rw [List.length_cons] at hFuel
      obtain ⟨out, hRead, hOut⟩ :=
        inner.reads hPause hRest (show 4 * ts.length + 2 ≤ fuel by omega)
      exact ⟨out, .inl ⟨begins, hRead⟩, hOut⟩

/-- A block is read up to its brace, whatever comes after it. -/
theorem Statement.Braced.reads {body : List Statement} {ts : List Token}
    (h : Statement.Braced body ts) {fuel : Nat} (hFuel : 4 * ts.length ≤ fuel)
    (rest : List Token) : Reading.block fuel (ts ++ rest) = .ok (body, rest) := by
  match h, fuel with
  | @Statement.Braced.mk opening closing _ ts opens inner closes, fuel =>
      simp only [List.length_cons, List.length_append] at hFuel
      obtain ⟨fuel, rfl⟩ := Nat.exists_eq_add_of_le' (show 1 ≤ fuel by omega)
      rw [List.cons_append, List.append_assoc, Reading.block, peek_cons, if_pos opens]
      exact inner.reads closes (by omega) rest

/-- The statements of a block in turn. After each of them the next one begins or
the brace comes, and neither belongs to it. -/
theorem Statement.WrittenAll.reads {body : List Statement} {ts : List Token}
    (h : Statement.WrittenAll body ts) {closing : Token} (closes : closing.isOperator "\x7d" = true)
    {fuel : Nat} (hFuel : 4 * ts.length + 1 ≤ fuel) (rest : List Token) :
    Reading.blockRest fuel (ts ++ closing :: rest) = .ok (body, rest) := by
  match h, fuel with
  | _, 0 => omega
  | .nil, fuel + 1 =>
      have hSkip : skipSemicolons (closing :: rest) = closing :: rest :=
        skipSemicolons_of_pause (Token.settles_of_isOperator closes (by decide)).pause
      rw [List.nil_append, Reading.blockRest]
      simp only [hSkip, peek_cons, closes, if_true, List.tail_cons]
  | @Statement.WrittenAll.cons s others ts us vs first pause pauses later, fuel + 1 =>
      have hStarts := first.starts (us ++ (vs ++ closing :: rest))
      have hClosing : (peek (closing :: rest)).Settles :=
        Token.settles_of_isOperator closes (by decide)
      have hSettles := later.settles hClosing
      simp only [List.length_append] at hFuel
      have hUs : 0 < us.length := List.length_pos_iff.mpr pauses
      have hFirst := first.reads pause pauses hSettles (show 4 * ts.length + 2 ≤ fuel by omega)
      have hLater := later.reads closes (show 4 * vs.length + 1 ≤ fuel by omega) rest
      simp only [List.append_assoc]
      rw [Reading.blockRest]
      simp only [skipSemicolons_of_pause hStarts.pause, hStarts.closing, hStarts.finish,
        Bool.false_eq_true, if_false, bind, Except.bind, hFirst, hLater]

end

/-- The statements of a whole program in turn, up to the end of the tokens. -/
theorem Statement.WrittenAll.statements {p : Program} {ts : List Token}
    (h : Statement.WrittenAll p ts) (n : Nat) {fuel : Nat} (hFuel : ts.length < fuel) :
    Reading.statements fuel (ts ++ [Token.finish n]) = .ok p := by
  induction p generalizing ts fuel with
  | nil =>
      cases h
      cases fuel with
      | zero => cases hFuel
      | succ fuel => rfl
  | cons s rest ih =>
      cases fuel with
      | zero => cases hFuel
      | succ fuel =>
          cases h with
          | @cons _ _ ts us vs first pause pauses later =>
              have hStarts := first.starts (us ++ (vs ++ [Token.finish n]))
              have hFinish : (peek [Token.finish n]).Settles := ⟨rfl, rfl⟩
              have hSettles := later.settles hFinish
              have hUs : 0 < us.length := List.length_pos_iff.mpr pauses
              simp only [List.length_append] at hFuel
              have hBudget :
                  4 * ts.length + 2 ≤ budget (ts ++ (us ++ (vs ++ [Token.finish n]))) := by
                simp only [budget, List.length_append]
                omega
              have hFirst := first.reads pause pauses hSettles hBudget
              have hLater := ih later (show vs.length < fuel by omega)
              simp only [List.append_assoc]
              rw [Reading.statements]
              simp only [hStarts.finish, Bool.false_eq_true, if_false, bind, Except.bind, hFirst,
                hLater]

/-- A program that can be written out is read back from its tokens, whichever
way it is written. -/
theorem ofTokens_written (p : Program) (hp : p ≠ [])
    (hPrintable : Statement.printableAll p = true) :
    Statement.WrittenAll p (Statement.printAll p) ∧
    ∀ ts n, Statement.WrittenAll p ts → Program.ofTokens (ts ++ [Token.finish n]) = .ok p := by
  refine ⟨Statement.printAll_written p hPrintable, fun ts n h => ?_⟩
  have hStarts : (peek (ts ++ [Token.finish n])).Starts := by
    cases h with
    | nil => exact absurd rfl hp
    | cons first pause pauses later =>
        rw [List.append_assoc]
        exact first.starts _
  have hRead := h.statements n (show ts.length < budget (ts ++ [Token.finish n]) by
    simp only [budget, List.length_append]
    omega)
  simp only [Program.ofTokens, skipSemicolons_of_pause hStarts.pause, hStarts.finish,
    Bool.false_eq_true, if_false, hRead]

/-- A program with every kind of statement. -/
def assorted : Program :=
  [.define .function "half" ["x"] [.returnValue (some (.binary .div (.name "x") (.number 2 "2")))],
   .define .procedure "stop" ["a", "b"]
     [.ifThen (.name "a") (.block [.endRun none]), .returnValue none],
   .constVar "two" (.unary .root (.number 4 "4")),
   .letVar "i" none,
   .letVar "j" (some (.binary .root (.name "two") (.call "half" [.number 8 "8"]))),
   .whileLoop (.binary .lt (.name "i") (.number 3 "3")) (.block
     [.ifElse (.binary .eq (.name "i") (.name "j")) (.block [.breakLoop])
        (.ifElse (.unary .not (.name "i")) (.block []) (.block [.continueLoop])),
      .expression (.binary .assign (.name "i") (.binary .add (.name "i") (.number 1 "1")))]),
   .block [.call "stop" [.name "i", .call "half" []]]]

/-- Every form of statement occurs here, with a conditional in a second branch
and calls with two arguments, one and none. -/
theorem ofTokens_written_assorted :
    assorted ≠ [] ∧ Statement.printableAll assorted = true ∧
    Program.ofTokens (Statement.printAll assorted ++ [Token.finish 0]) = .ok assorted := by
  have hPrintable : Statement.printableAll assorted = true := by decide +kernel
  have hNonempty : assorted ≠ [] := List.cons_ne_nil _ _
  obtain ⟨hWritten, hRead⟩ := ofTokens_written assorted hNonempty hPrintable
  exact ⟨hNonempty, hPrintable, hRead _ 0 hWritten⟩

end Reckoner
