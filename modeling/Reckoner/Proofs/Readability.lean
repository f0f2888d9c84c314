import Reckoner.Proofs.EntryPoints
import Reckoner.Proofs.Offsets
import Reckoner.Proofs.Spacing

/-! Rendered expressions can be read in one way only. In the text of an
expression that was read, names and numbers end at the first delimiter, and every
operation and every call ends at a parenthesis of its own. So the text that an
expression begins with is found in any text that goes on in a suitable way, and
with it the expression. -/
namespace Reckoner

/-- The characters that part names and numbers from what stands around them. -/
def delimiters : List Char := ['(', ')', ' ', ',']

/-- A text without delimiters that begins with one of certain characters. -/
structure Undivided (begins : Char → Bool) (text : String) : Prop where
  head : ∃ c rest, text.toList = c :: rest ∧ begins c = true
  whole : ∀ c ∈ text.toList, c ∉ delimiters

/-! Names and numbers as they are scanned. -/

namespace Lexicon

open Pattern

/-- What the rules with a certain action take is undivided if their patterns say
so. -/
theorem Munches.undivided {mode : Mode} {lexeme rest : List Char} {action : Action}
    {begins : Char → Bool} (h : Munches (rules mode) lexeme rest action)
    (hRules : ∀ rule ∈ (rules mode).filter fun rule => rule.action = action,
      delimiters.all rule.pattern.avoids = true ∧
        ∀ c, rule.pattern.starts c = true → begins c = true) :
    Undivided begins (String.ofList lexeme) := by
  obtain ⟨rule, hRule, hAction, hMatches⟩ := h.earliest.exists_rule
  obtain ⟨hAvoids, hBegins⟩ := hRules rule (List.mem_filter.mpr ⟨hRule, decide_eq_true hAction⟩)
  obtain ⟨c, s, rfl⟩ := List.exists_cons_of_ne_nil h.ne_nil
  refine ⟨⟨c, s, String.toList_ofList, hBegins c (starts_of_matches hMatches)⟩, ?_⟩
  intro d hd hDelimiter
  rw [String.toList_ofList] at hd
  exact not_mem_of_avoids hMatches (List.all_eq_true.mp hAvoids d hDelimiter) hd

/-- The patterns of numbers have no delimiter in them and begin with a digit or
a point. -/
theorem Munches.undivided_number {mode : Mode} {lexeme rest : List Char}
    (h : Munches (rules mode) lexeme rest (.emit .number)) :
    Undivided beginsNumber (String.ofList lexeme) := by
  apply h.undivided
  cases mode with
  | comment => simp [rules, commentRules]
  | code =>
      have hZero (c : Char) (hc : (c == '0') = true) : beginsNumber c = true := by
        rw [beq_iff_eq] at hc
        exact hc ▸ rfl
      rintro rule hRule
      have hRule : rule ∈ [codeRules[3], codeRules[4], codeRules[5]] := hRule
      simp only [List.mem_cons, List.not_mem_nil, or_false] at hRule
      rcases hRule with rfl | rfl | rfl
      · exact ⟨by decide, fun c hc => hZero c (by simpa [codeRules, starts, nullable] using hc)⟩
      · exact ⟨by decide, fun c hc => hZero c (by simpa [codeRules, starts, nullable] using hc)⟩
      · refine ⟨by decide, fun c hc => ?_⟩
        simpa [codeRules, starts, nullable, digits, repeated, beginsNumber] using hc

/-- The pattern of words has none either and begins with a letter or a low line. -/
theorem Munches.undivided_word {mode : Mode} {lexeme rest : List Char}
    (h : Munches (rules mode) lexeme rest .word) :
    Undivided isWordStart (String.ofList lexeme) := by
  apply h.undivided
  cases mode with
  | comment => simp [rules, commentRules]
  | code =>
      intro rule hRule
      have hRule : rule ∈ [codeRules[6]] := hRule
      rw [List.mem_singleton.mp hRule]
      refine ⟨by decide, fun c hc => ?_⟩
      simpa [codeRules, starts, nullable] using hc

end Lexicon

/-- If a token is a number or a name, its text is undivided. -/
structure Token.Legible (t : Token) : Prop where
  number : t.kind = .number → Undivided Lexicon.beginsNumber t.text
  name : t.kind = .name → Undivided Lexicon.isWordStart t.text

theorem undivided_digit {text : String} (c : Char) (hText : text.toList = [c])
    (hBegins : Lexicon.beginsNumber c = true) (h : c ∉ delimiters) :
    Undivided Lexicon.beginsNumber text := by
  refine ⟨⟨c, [], hText, hBegins⟩, fun d hd => ?_⟩
  rw [hText, List.mem_singleton] at hd
  exact hd ▸ h

theorem Token.legible_of_kind {t : Token} (kind : Token.Kind) (h : t.kind = kind)
    (hNumber : kind ≠ .number) (hName : kind ≠ .name) : t.Legible :=
  ⟨fun hKind => absurd (h.symm.trans hKind) hNumber, fun hKind => absurd (h.symm.trans hKind) hName⟩

theorem Token.legible_of_number {t : Token} (h : t.kind = .number)
    (hText : Undivided Lexicon.beginsNumber t.text) : t.Legible :=
  ⟨fun _ => hText, fun hKind => absurd (h.symm.trans hKind) (by decide)⟩

open Lexicon in
/-- Tokens that are neither numbers nor names need nothing. The others come from
the two rules above, or are the digits that stand for truth values. -/
theorem Lexicon.Makes.legible {mode : Mode} {lexeme rest : List Char} {action : Action} {t : Token}
    (h : Makes action (String.ofList lexeme) (some t.shape))
    (hTaken : Munches (rules mode) lexeme rest action) : t.Legible := by
  have hNames : ∀ rule ∈ rules mode, rule.action ≠ .emit .name := by cases mode <;> decide
  obtain ⟨rule, hRule, hAction, -⟩ := hTaken.earliest.exists_rule
  generalize hWord : String.ofList lexeme = word at h
  obtain ⟨kind, text, start, stop⟩ := t
  cases h with
  | emit =>
      refine ⟨?_, ?_⟩
      · rintro rfl
        exact hWord ▸ hTaken.undivided_number
      · rintro rfl
        exact absurd hAction (hNames rule hRule)
  | yes => exact Token.legible_of_number rfl (undivided_digit '1' (by simp) rfl (by decide))
  | no => exact Token.legible_of_number rfl (undivided_digit '0' (by simp) rfl (by decide))
  | keyword => exact Token.legible_of_kind .keyword rfl (by decide) (by decide)
  | name =>
      refine ⟨fun hKind => ?_, fun _ => hWord ▸ hTaken.undivided_word⟩
      cases hKind

/-- All tokens of a text are legible. -/
theorem tokenize_legible {text : String} {t : Token} (h : t ∈ tokenize text) : t.Legible := by
  rcases List.mem_append.mp h with hScanned | hLast
  · obtain ⟨_, _, _, _, _, -, hTaken, hMakes, -⟩ := (Lexicon.scans_scan ..).origin hScanned
    exact hMakes.legible hTaken
  · rw [List.mem_singleton.mp hLast]
    exact Token.legible_of_kind .finish rfl (by decide) (by decide)

/-! Expressions made of such tokens. -/

namespace Expr

mutual

/-- The names and numbers of an expression are undivided, and the numbers have
the values that their texts spell. -/
def Legible : Expr → Prop
  | number value text => Undivided Lexicon.beginsNumber text ∧ Literal.value? text = some value
  | name text => Undivided Lexicon.isWordStart text
  | unary _ e => e.Legible
  | binary _ left right => left.Legible ∧ right.Legible
  | call callee args => Undivided Lexicon.isWordStart callee ∧ LegibleAll args

def LegibleAll : List Expr → Prop
  | [] => True
  | e :: rest => e.Legible ∧ LegibleAll rest

end

end Expr

namespace Reading

theorem literal_legible {t : Token} {e : Expr} (h : literal t = .ok e) (hKind : t.kind = .number)
    (ht : t.Legible) : e.Legible := by
  unfold literal at h
  split at h
  · next hValue =>
      cases h
      exact ⟨ht.number hKind, hValue⟩
  · cases h

/-- An assignment that also computes writes its left side twice, which does no
harm. -/
theorem combine_legible {t : Token} {joint : Joint} (h : joint? t = some joint) {left right : Expr}
    (hLeft : left.Legible) (hRight : right.Legible) : (joint.combine left right).Legible := by
  rcases joint?_cases h with ⟨op, b, -, -, -, rfl⟩ | ⟨op, -, -, rfl⟩
  · exact ⟨hLeft, hRight⟩
  · exact ⟨hLeft, hLeft, hRight⟩

mutual

/-- The induction follows the derivation: an expression is made of nothing but
its tokens. -/
theorem IsExpression.legible {least : Rat} {ts : List Token} {e : Expr} {next : Token}
    (h : IsExpression least ts e next) (hts : ∀ t ∈ ts, t.Legible) : e.Legible := by
  match h with
  | .mk begins goesOn =>
      obtain ⟨hFormer, hLatter⟩ := List.forall_mem_append.mp hts
      exact goesOn.legible (begins.legible hFormer) hLatter

/-- The expression on the left comes from tokens too. -/
theorem Extends.legible {least : Rat} {left : Expr} {ts : List Token} {e : Expr} {next : Token}
    (h : Extends least left ts e next) (hLeft : left.Legible) (hts : ∀ t ∈ ts, t.Legible) :
    e.Legible := by
  match h with
  | .stop _ => exact hLeft
  | .join joins _ operand goesOn =>
      obtain ⟨-, hts⟩ := List.forall_mem_cons.mp hts
      obtain ⟨hFormer, hLatter⟩ := List.forall_mem_append.mp hts
      exact goesOn.legible (combine_legible joins hLeft (operand.legible hFormer)) hLatter

/-- Names and numbers are tokens, and everything else is made of smaller
expressions. -/
theorem IsOperand.legible {ts : List Token} {e : Expr} {next : Token} (h : IsOperand ts e next)
    (hts : ∀ t ∈ ts, t.Legible) : e.Legible := by
  match h with
  | .number kind spells => exact literal_legible spells kind (hts _ List.mem_cons_self)
  | .name kind _ => exact (hts _ List.mem_cons_self).name kind
  | .call kind _ inner =>
      obtain ⟨hName, hts⟩ := List.forall_mem_cons.mp hts
      obtain ⟨-, hInner⟩ := List.forall_mem_cons.mp hts
      exact ⟨hName.name kind, inner.legible hInner⟩
  | .group _ _ inner =>
      obtain ⟨-, hts⟩ := List.forall_mem_cons.mp hts
      exact inner.legible (List.forall_mem_append.mp hts).1
  | .unary _ _ inner _ => exact inner.legible (List.forall_mem_cons.mp hts).2
  | .root _ _ former _ latter =>
      obtain ⟨-, hts⟩ := List.forall_mem_cons.mp hts
      obtain ⟨hFormer, hLatter⟩ := List.forall_mem_append.mp hts
      exact ⟨former.legible hFormer, latter.legible hLatter⟩

theorem AreArguments.legible {ts : List Token} {args : List Expr} (h : AreArguments ts args)
    (hts : ∀ t ∈ ts, t.Legible) : Expr.LegibleAll args := by
  match h with
  | .none _ => trivial
  | .some inner _ => exact inner.legible (List.forall_mem_append.mp hts).1

theorem AreSequence.legible {ts : List Token} {es : List Expr} {next : Token}
    (h : AreSequence ts es next) (hts : ∀ t ∈ ts, t.Legible) : Expr.LegibleAll es := by
  match h with
  | .one inner _ => exact ⟨inner.legible hts, trivial⟩
  | .more inner _ others =>
      obtain ⟨hFormer, hts⟩ := List.forall_mem_append.mp hts
      exact ⟨inner.legible hFormer, others.legible (List.forall_mem_cons.mp hts).2⟩

end

end Reading

/-- What is read from a text is legible, whatever the text. -/
theorem Expr.ofText_legible {text : String} {e : Expr} (h : Expr.ofText text = .ok e) :
    e.Legible := by
  obtain ⟨rest, hRead, -⟩ := Expr.read_of_ofTokens h
  obtain ⟨used, hTokens, hExpression⟩ := Expr.read_ok_iff.mp hRead
  have hLegible (t : Token) (ht : t ∈ used) : t.Legible :=
    tokenize_legible (hTokens ▸ List.mem_append_left rest ht)
  exact hExpression.legible hLegible

/-! Reading the text. -/

/-- Nothing follows, or a delimiter that cannot open anything. -/
def Closes (u : List Char) : Prop := ∀ c, u.head? = some c → c ∈ [')', ' ', ',']

theorem closes_nil : Closes [] := fun _ h => (by cases h)

/-- Whether a text closes is decided by its first character. -/
theorem closes_cons {c : Char} (h : c ∈ [')', ' ', ',']) (u : List Char) : Closes (c :: u) := by
  intro d hd
  cases hd
  exact h

theorem closes_close (u : List Char) : Closes (')' :: u) := closes_cons (by decide) u

theorem closes_blank (u : List Char) : Closes (' ' :: u) := closes_cons (by decide) u

/-- A parenthesis that opens does not close, so it belongs to what stands before
it. -/
theorem Closes.ne_open {u v : List Char} (h : Closes u) : u ≠ '(' :: v := by
  rintro rfl
  exact absurd (h '(' rfl) (by decide)

/-- Two texts without delimiters, before a delimiter or the end, are the same if
the texts that they begin are. -/
theorem cancel_undivided {a b u v : List Char} (ha : ∀ c ∈ a, c ∉ delimiters)
    (hb : ∀ c ∈ b, c ∉ delimiters) (hu : ∀ c, u.head? = some c → c ∈ delimiters)
    (hv : ∀ c, v.head? = some c → c ∈ delimiters) (h : a ++ u = b ++ v) : a = b ∧ u = v := by
  have hTaken {a u : List Char} (ha : ∀ c ∈ a, c ∉ delimiters)
      (hu : ∀ c, u.head? = some c → c ∈ delimiters) :
      (a ++ u).takeWhile (fun c => c ∉ delimiters) = a := by
    rw [List.takeWhile_append_of_pos fun c hc => decide_eq_true (ha c hc)]
    cases u with
    | nil => rw [List.takeWhile_nil, List.append_nil]
    | cons c u =>
        have hc : c ∈ delimiters := hu c rfl
        rw [List.takeWhile_cons_of_neg (by simpa using hc), List.append_nil]
  have hSame : a = b := by rw [← hTaken ha hu, h, hTaken hb hv]
  exact ⟨hSame, List.append_cancel_left (hSame ▸ h)⟩

namespace Expr

/-- What follows the first of some expressions in a list. -/
def more (es : List Expr) : List Char := es.flatMap fun e => ',' :: ' ' :: e.render.toList

theorem more_cons (e : Expr) (es : List Expr) :
    more (e :: es) = ',' :: ' ' :: (e.render.toList ++ more es) := rfl

/-- What follows an expression in a list that is closed. -/
theorem closes_more (es : List Expr) (u : List Char) : Closes (more es ++ ')' :: u) := by
  cases es with
  | nil => exact closes_close u
  | cons e es => exact closes_cons (by decide) _

def listed : List Expr → List Char
  | [] => []
  | e :: rest => e.render.toList ++ more rest

/-- The arguments as they stand in the text: the first, and each other after a
comma and a blank. -/
theorem toList_intercalate_render (args : List Expr) :
    (", ".intercalate (renderAll args)).toList = listed args := by
  rw [String.toList_intercalate]
  cases args with
  | nil => rfl
  | cons e rest =>
      induction rest generalizing e with
      | nil => simp [renderAll, listed, more]
      | cons f rest ih =>
          have hRest := ih f
          simp only [renderAll, List.map_cons, listed, more] at hRest ⊢
          rw [List.intercalate_cons_cons, hRest]
          simp

/-- The text of an expression up to the first delimiter. -/
def stem : Expr → List Char
  | number _ text | name text | call text _ => text.toList
  | unary .. | binary .. => []

/-- The text of an expression from the first delimiter on. -/
def branches : Expr → List Char
  | number .. | name _ => []
  | unary op e => '(' :: (op.glyph.toList ++ ' ' :: (e.render.toList ++ [')']))
  | binary op left right =>
    '(' :: (op.glyph.toList ++ ' ' :: (left.render.toList ++ ' ' :: (right.render.toList ++ [')'])))
  | call _ args => '(' :: (listed args ++ [')'])

theorem unary_branches_append (op : Operator) (e : Expr) (u : List Char) :
    (unary op e).branches ++ u =
      '(' :: (op.glyph.toList ++ ' ' :: (e.render.toList ++ ')' :: u)) := by
  simp [branches]

theorem binary_branches_append (op : Operator) (left right : Expr) (u : List Char) :
    (binary op left right).branches ++ u = '(' :: (op.glyph.toList ++
      ' ' :: (left.render.toList ++ ' ' :: (right.render.toList ++ ')' :: u))) := by
  simp [branches]

theorem call_branches_append (callee : String) (args : List Expr) (u : List Char) :
    (call callee args).branches ++ u = '(' :: (listed args ++ ')' :: u) := by
  simp [branches]

/-- The text is cut at the first delimiter, once for all forms of expressions. -/
theorem toList_render (e : Expr) : e.render.toList = e.stem ++ e.branches := by
  cases e with
  | call callee args =>
      simp only [render, String.toList_append, toList_intercalate_render, stem, branches,
        List.append_assoc]
      rfl
  | _ => simp [render, String.toList_append, stem, branches]

/-- There is no delimiter before the cut. -/
theorem Legible.stem_whole {e : Expr} (h : e.Legible) : ∀ c ∈ e.stem, c ∉ delimiters := by
  cases e with
  | number value text => exact h.1.whole
  | name text => exact h.whole
  | call callee args => exact h.1.whole
  | _ => exact fun c hc => absurd hc List.not_mem_nil

/-- What stands from the first delimiter on begins with a parenthesis. -/
theorem branches_cases (e : Expr) : e.branches = [] ∨ ∃ rest, e.branches = '(' :: rest := by
  cases e with
  | number | name => exact .inl rfl
  | _ => exact .inr ⟨_, rfl⟩

/-- Behind the cut stands a delimiter, or whatever follows the expression. -/
theorem head_branches {e : Expr} {u : List Char} (hu : Closes u) (c : Char)
    (h : (e.branches ++ u).head? = some c) : c ∈ delimiters := by
  rcases e.branches_cases with hNone | ⟨rest, hSome⟩
  · rw [hNone, List.nil_append] at h
    exact List.mem_cons_of_mem _ (hu c h)
  · rw [hSome] at h
    cases h
    exact List.mem_cons_self

/-- The text up to the first delimiter, and the text from there on, can be told
from the whole text. -/
theorem cancel_stem {e f : Expr} (he : e.Legible) (hf : f.Legible) {u v : List Char}
    (hu : Closes u) (hv : Closes v) (h : e.render.toList ++ u = f.render.toList ++ v) :
    e.stem = f.stem ∧ e.branches ++ u = f.branches ++ v := by
  rw [toList_render, toList_render, List.append_assoc, List.append_assoc] at h
  exact cancel_undivided he.stem_whole hf.stem_whole (head_branches hu) (head_branches hv) h

end Expr

theorem Undivided.ne_nil {begins : Char → Bool} {text : String} (h : Undivided begins text) :
    text.toList ≠ [] := by
  obtain ⟨c, rest, hText, -⟩ := h.head
  simp [hText]

/-- No text begins both like a number and like a name. -/
theorem Undivided.ne_word {x y : String} (hx : Undivided Lexicon.beginsNumber x)
    (hy : Undivided Lexicon.isWordStart y) : x ≠ y := by
  rintro rfl
  obtain ⟨c, rest, hText, hc⟩ := hx.head
  obtain ⟨d, rest', hText', hd⟩ := hy.head
  obtain ⟨rfl, -⟩ := List.cons.inj (hText.symm.trans hText')
  rw [Lexicon.not_beginsNumber_of_isWordStart hd] at hc
  cases hc

namespace Expr

/-- Only operations begin with a delimiter, since names and numbers are not
empty. -/
theorem Legible.operation {e : Expr} (h : e.Legible) (hStem : e.stem = []) :
    (∃ op operand, e = unary op operand) ∨ ∃ op left right, e = binary op left right := by
  cases e with
  | number value text => exact absurd hStem h.1.ne_nil
  | name text => exact absurd hStem h.ne_nil
  | unary op operand => exact .inl ⟨op, operand, rfl⟩
  | binary op left right => exact .inr ⟨op, left, right, rfl⟩
  | call callee args => exact absurd hStem h.1.ne_nil

/-- The sign of an operation ends at a blank. -/
theorem cancel_glyph {op op' : Operator} {a b : List Char}
    (h : op.glyph.toList ++ ' ' :: a = op'.glyph.toList ++ ' ' :: b) : op = op' ∧ a = b := by
  have hWhole (op : Operator) (c : Char) (hc : c ∈ op.glyph.toList) : c ∉ delimiters := by
    have hAll : (op.glyph.toList.all fun c => c ∉ delimiters) = true := by cases op <;> decide
    exact of_decide_eq_true (List.all_eq_true.mp hAll c hc)
  have hBlank (a : List Char) (c : Char) (hc : (' ' :: a).head? = some c) : c ∈ delimiters := by
    cases hc
    decide
  obtain ⟨hGlyph, hRest⟩ := cancel_undivided (hWhole op) (hWhole op') (hBlank a) (hBlank b) h
  have hSame := (Token.sign_spells op).text
  rw [String.toList_inj.mp hGlyph] at hSame
  exact ⟨Option.some.inj (hSame.symm.trans (Token.sign_spells op').text), (List.cons.inj hRest).2⟩

/-- The text of an expression does not begin like what may follow one. -/
theorem Legible.not_closes {e : Expr} (h : e.Legible) (u : List Char) :
    ¬ Closes (e.render.toList ++ u) := by
  intro hCloses
  rw [toList_render, List.append_assoc] at hCloses
  cases hStem : e.stem with
  | cons c rest =>
      rw [hStem] at hCloses
      have hWhole : c ∉ delimiters := h.stem_whole c (hStem ▸ List.mem_cons_self)
      exact hWhole (List.mem_cons_of_mem _ (hCloses c rfl))
  | nil =>
      rw [hStem, List.nil_append] at hCloses
      rcases h.operation hStem with ⟨op, operand, rfl⟩ | ⟨op, left, right, rfl⟩
      · exact hCloses.ne_open rfl
      · exact hCloses.ne_open rfl

/-- A name or a number is all of an expression if no parenthesis opens after it. -/
theorem cancel_atom {f : Expr} {u v : List Char} (hu : Closes u) (h : u = f.branches ++ v) :
    f.branches = [] ∧ u = v := by
  rcases f.branches_cases with hNone | ⟨rest, hSome⟩
  · rw [hNone] at h
    exact ⟨hNone, h⟩
  · rw [hSome] at h
    exact absurd h hu.ne_open

mutual

/-- The expression that a text begins with, and what follows it, can be told from
the text. The induction is on the expression. -/
theorem cancel_render (e : Expr) (he : e.Legible) {f : Expr} (hf : f.Legible) {u v : List Char}
    (hu : Closes u) (hv : Closes v) (h : e.render.toList ++ u = f.render.toList ++ v) :
    e = f ∧ u = v := by
  obtain ⟨hStem, hBranches⟩ := cancel_stem he hf hu hv h
  match e with
  | number value text =>
      obtain ⟨hNone, hRest⟩ := cancel_atom hu hBranches
      refine ⟨?_, hRest⟩
      cases f with
      | number other text' =>
          obtain rfl : text = text' := String.toList_inj.mp hStem
          rw [Option.some.inj (he.2.symm.trans hf.2)]
      | name text' => exact absurd (String.toList_inj.mp hStem) (he.1.ne_word hf)
      | _ => cases hNone
  | name text =>
      obtain ⟨hNone, hRest⟩ := cancel_atom hu hBranches
      refine ⟨?_, hRest⟩
      cases f with
      | number other text' => exact absurd (String.toList_inj.mp hStem).symm (hf.1.ne_word he)
      | name text' => rw [String.toList_inj.mp hStem]
      | _ => cases hNone
  | unary op operand =>
      rw [unary_branches_append] at hBranches
      rcases hf.operation hStem.symm with ⟨op', operand', rfl⟩ | ⟨op', left', right', rfl⟩
      · have hOperand' : operand'.Legible := hf
        rw [unary_branches_append] at hBranches
        obtain ⟨rfl, hRest⟩ := cancel_glyph (List.cons.inj hBranches).2
        obtain ⟨rfl, hClose⟩ :=
          cancel_render operand he hOperand' (closes_close u) (closes_close v) hRest
        exact ⟨rfl, (List.cons.inj hClose).2⟩
      -- One operand and two of them differ in what stands after the first: a parenthesis or a
      -- blank.
      · rw [binary_branches_append] at hBranches
        obtain ⟨rfl, hRest⟩ := cancel_glyph (List.cons.inj hBranches).2
        obtain ⟨-, hClose⟩ :=
          cancel_render operand he hf.1 (closes_close u) (closes_blank _) hRest
        exact absurd (List.cons.inj hClose).1 (by decide)
  | binary op left right =>
      rw [binary_branches_append] at hBranches
      rcases hf.operation hStem.symm with ⟨op', operand', rfl⟩ | ⟨op', left', right', rfl⟩
      · have hOperand : operand'.Legible := hf
        rw [unary_branches_append] at hBranches
        obtain ⟨rfl, hRest⟩ := cancel_glyph (List.cons.inj hBranches).2
        obtain ⟨-, hClose⟩ :=
          cancel_render left he.1 hOperand (closes_blank _) (closes_close v) hRest
        exact absurd (List.cons.inj hClose).1 (by decide)
      · rw [binary_branches_append] at hBranches
        obtain ⟨rfl, hRest⟩ := cancel_glyph (List.cons.inj hBranches).2
        obtain ⟨rfl, hBlank⟩ :=
          cancel_render left he.1 hf.1 (closes_blank _) (closes_blank _) hRest
        obtain ⟨rfl, hClose⟩ := cancel_render right he.2 hf.2 (closes_close u) (closes_close v)
          (List.cons.inj hBlank).2
        exact ⟨rfl, (List.cons.inj hClose).2⟩
  | call callee args =>
      rw [call_branches_append] at hBranches
      cases f with
      | number | name => exact absurd hBranches.symm hv.ne_open
      | unary | binary => exact absurd hStem he.1.ne_nil
      | call callee' args' =>
          rw [call_branches_append] at hBranches
          obtain ⟨rfl, rfl⟩ := cancel_listed args he.2 hf.2 (List.cons.inj hBranches).2
          rw [String.toList_inj.mp hStem]
          exact ⟨rfl, rfl⟩

/-- Lists of arguments are told apart by how they begin: a list that is not
empty does not begin with the parenthesis. -/
theorem cancel_listed (es : List Expr) (hes : LegibleAll es) {fs : List Expr}
    (hfs : LegibleAll fs) {u v : List Char} (h : listed es ++ ')' :: u = listed fs ++ ')' :: v) :
    es = fs ∧ u = v := by
  match es, fs with
  | [], [] => exact ⟨rfl, (List.cons.inj h).2⟩
  | [], f :: fs =>
      rw [listed, listed, List.nil_append, List.append_assoc] at h
      exact absurd (h ▸ closes_close u) (hfs.1.not_closes _)
  | e :: es, [] =>
      rw [listed, listed, List.nil_append, List.append_assoc] at h
      exact absurd (h ▸ closes_close v) (hes.1.not_closes _)
  | e :: es, f :: fs =>
      rw [listed, listed, List.append_assoc, List.append_assoc] at h
      obtain ⟨rfl, hMore⟩ := cancel_render e hes.1 hfs.1 (closes_more es u) (closes_more fs v) h
      obtain ⟨rfl, rfl⟩ := cancel_more es hes.2 hfs.2 hMore
      exact ⟨rfl, rfl⟩

/-- Behind the first argument, a comma or the parenthesis shows whether there
are more. -/
theorem cancel_more (es : List Expr) (hes : LegibleAll es) {fs : List Expr}
    (hfs : LegibleAll fs) {u v : List Char} (h : more es ++ ')' :: u = more fs ++ ')' :: v) :
    es = fs ∧ u = v := by
  match es, fs with
  | [], [] => exact ⟨rfl, (List.cons.inj h).2⟩
  | [], f :: fs => exact absurd (List.cons.inj h).1 (by decide)
  | e :: es, [] => exact absurd (List.cons.inj h).1 (by decide)
  | e :: es, f :: fs =>
      rw [more_cons, more_cons] at h
      simp only [List.cons_append, List.append_assoc, List.cons.injEq, true_and] at h
      obtain ⟨rfl, hMore⟩ := cancel_render e hes.1 hfs.1 (closes_more es u) (closes_more fs v) h
      obtain ⟨rfl, rfl⟩ := cancel_more es hes.2 hfs.2 hMore
      exact ⟨rfl, rfl⟩

end

end Expr

/-- Two expressions that were read and are rendered alike are the same: the
operators with their numbers of operands, the names, the lists of arguments, and
the texts and values of the numbers. -/
theorem render_unambiguous {text text' : String} {e f : Expr} (he : Expr.ofText text = .ok e)
    (hf : Expr.ofText text' = .ok f) (h : e.render = f.render) : e = f := by
  have hText : e.render.toList ++ [] = f.render.toList ++ [] := by rw [h]
  exact (Expr.cancel_render e (Expr.ofText_legible he) (Expr.ofText_legible hf)
    closes_nil closes_nil hText).1

/-- Grouping that changes nothing, another spelling of a sign and a comment are
not seen in the rendered text. -/
theorem render_unambiguous_grouped : ∃ e f : Expr,
    Expr.ofText "-a - f(b, c) & √d" = .ok e ∧
    Expr.ofText "((-a) - (f((b), c))) && (√d) // again" = .ok f ∧ e.render = f.render ∧ e = f :=
  have he : Expr.ofText "-a - f(b, c) & √d" = .ok
      (.binary .and (.binary .sub (.unary .sub (.name "a")) (.call "f" [.name "b", .name "c"]))
        (.unary .root (.name "d"))) := by with_unfolding_all rfl
  have hf : Expr.ofText "((-a) - (f((b), c))) && (√d) // again" = .ok
      (.binary .and (.binary .sub (.unary .sub (.name "a")) (.call "f" [.name "b", .name "c"]))
        (.unary .root (.name "d"))) := by with_unfolding_all rfl
  ⟨_, _, he, hf, rfl, render_unambiguous he hf rfl⟩

end Reckoner
