import Reckoner.Number.Literal
import Reckoner.Statement
import Reckoner.Token

/-! Writing trees out as tokens. Every operation stands in parentheses, bodies
stand in braces, and every statement is followed by semicolons. This leaves some
freedom: the offsets of the tokens, the spelling of operators, parentheses that
are not needed, and the number of semicolons. `Written` allows all of it, and
`print` is one way to do it. -/
namespace Reckoner

/-- A token that spells an operator. -/
structure Token.Spells (t : Token) (op : Operator) : Prop where
  kind : t.kind = .operator
  text : Operator.ofGlyph? t.text = some op

/-- A token that is a name. -/
structure Token.Names (t : Token) (name : String) : Prop where
  kind : t.kind = .name
  text : t.text = name

def AreSemicolons (ts : List Token) : Prop := ∀ t ∈ ts, t.isOperator ";" = true

mutual

/-- Tokens that write out an expression. -/
inductive Expr.Written : Expr → List Token → Prop
  | number {t : Token} {value : Float} {text : String} (kind : t.kind = .number)
      (reads : t.text = text) (spells : Literal.value? text = some value) :
      Written (.number value text) [t]
  | name {t : Token} {name : String} (names : t.Names name) : Written (.name name) [t]
  | unary {opening t closing : Token} {op : Operator} {e : Expr} {ts : List Token}
      (opens : opening.isOperator "(" = true) (spells : t.Spells op)
      (before : op.prefixPower?.isSome = true) (operand : Written e ts)
      (closes : closing.isOperator ")" = true) :
      Written (.unary op e) (opening :: t :: (ts ++ [closing]))
  | binary {opening t closing : Token} {op : Operator} {a b : Expr} {ts us : List Token}
      (opens : opening.isOperator "(" = true) (left : Written a ts) (spells : t.Spells op)
      (between : op.infixBinding?.isSome = true) (right : Written b us)
      (closes : closing.isOperator ")" = true) :
      Written (.binary op a b) (opening :: (ts ++ t :: (us ++ [closing])))
  | call {t opening closing : Token} {name : String} {args : List Expr} {ts : List Token}
      (names : t.Names name) (opens : opening.isOperator "(" = true)
      (inner : WrittenAll args ts) (closes : closing.isOperator ")" = true) :
      Written (.call name args) (t :: opening :: (ts ++ [closing]))
  | group {opening closing : Token} {e : Expr} {ts : List Token}
      (opens : opening.isOperator "(" = true) (inner : Written e ts)
      (closes : closing.isOperator ")" = true) : Written e (opening :: (ts ++ [closing]))

/-- Tokens that write out expressions with commas between them. -/
inductive Expr.WrittenAll : List Expr → List Token → Prop
  | nil : WrittenAll [] []
  | one {e : Expr} {ts : List Token} (inner : Written e ts) : WrittenAll [e] ts
  | more {e other : Expr} {rest : List Expr} {comma : Token} {ts us : List Token}
      (inner : Written e ts) (divides : comma.isOperator "," = true)
      (others : WrittenAll (other :: rest) us) :
      WrittenAll (e :: other :: rest) (ts ++ comma :: us)

end

/-- Tokens that write out an expression that may be left out. -/
inductive Expr.WrittenIfAny : Option Expr → List Token → Prop
  | none : WrittenIfAny none []
  | some {e : Expr} {ts : List Token} (inner : e.Written ts) : WrittenIfAny (some e) ts

/-- Tokens that write out names with commas between them. -/
inductive NamesWritten : List String → List Token → Prop
  | nil : NamesWritten [] []
  | one {t : Token} {name : String} (names : t.Names name) : NamesWritten [name] [t]
  | more {t comma : Token} {name other : String} {rest : List String} {ts : List Token}
      (names : t.Names name) (divides : comma.isOperator "," = true)
      (others : NamesWritten (other :: rest) ts) :
      NamesWritten (name :: other :: rest) (t :: comma :: ts)

/-- The word that begins the declaration of a subroutine. -/
def Subroutine.Kind.word : Subroutine.Kind → String
  | function => "fn"
  | procedure => "proc"

/-- Whether an expression is a call by itself. -/
def Expr.isCall : Expr → Bool
  | call .. => true
  | _ => false

mutual

/-- Tokens that write out a statement, without the semicolons after it. -/
inductive Statement.Written : Statement → List Token → Prop
  | expression {e : Expr} {ts : List Token} (plain : e.isCall = false) (inner : e.Written ts) :
      Written (.expression e) ts
  | call {name : String} {args : List Expr} {ts : List Token}
      (inner : (Expr.call name args).Written ts) : Written (.call name args) ts
  | block {body : List Statement} {ts : List Token} (inner : Braced body ts) :
      Written (.block body) ts
  | conditional {word : Token} {s : Statement} {ts : List Token}
      (begins : word.isKeyword "if" = true) (inner : Conditional s ts) : Written s (word :: ts)
  | whileLoop {word : Token} {test : Expr} {body : List Statement} {ts us : List Token}
      (begins : word.isKeyword "while" = true) (condition : test.Written ts)
      (inner : Braced body us) : Written (.whileLoop test (.block body)) (word :: (ts ++ us))
  | breakLoop {word : Token} (begins : word.isKeyword "break" = true) :
      Written .breakLoop [word]
  | continueLoop {word : Token} (begins : word.isKeyword "continue" = true) :
      Written .continueLoop [word]
  | returnValue {word : Token} {value : Option Expr} {ts : List Token}
      (begins : word.isKeyword "return" = true) (inner : Expr.WrittenIfAny value ts) :
      Written (.returnValue value) (word :: ts)
  | endRun {word : Token} {value : Option Expr} {ts : List Token}
      (begins : word.isKeyword "end" = true) (inner : Expr.WrittenIfAny value ts) :
      Written (.endRun value) (word :: ts)
  | letVar {word t : Token} {name : String} (begins : word.isKeyword "let" = true)
      (names : t.Names name) : Written (.letVar name none) [word, t]
  | letInit {word t sign : Token} {name : String} {init : Expr} {ts : List Token}
      (begins : word.isKeyword "let" = true) (names : t.Names name)
      (equates : sign.isOperator "=" = true) (inner : init.Written ts) :
      Written (.letVar name (some init)) (word :: t :: sign :: ts)
  | constVar {word t sign : Token} {name : String} {init : Expr} {ts : List Token}
      (begins : word.isKeyword "const" = true) (names : t.Names name)
      (equates : sign.isOperator "=" = true) (inner : init.Written ts) :
      Written (.constVar name init) (word :: t :: sign :: ts)
  | define {kind : Subroutine.Kind} {word t opening closing : Token} {name : String}
      {params : List String} {body : List Statement} {ts us : List Token}
      (begins : word.isKeyword kind.word = true) (names : t.Names name)
      (opens : opening.isOperator "(" = true) (lists : NamesWritten params ts)
      (closes : closing.isOperator ")" = true) (inner : Braced body us) :
      Written (.define kind name params body) (word :: t :: opening :: (ts ++ closing :: us))

/-- Tokens that write out a conditional, from after its first word. -/
inductive Statement.Conditional : Statement → List Token → Prop
  | ifThen {test : Expr} {yes : List Statement} {ts us : List Token} (condition : test.Written ts)
      (branch : Braced yes us) : Conditional (.ifThen test (.block yes)) (ts ++ us)
  | ifElse {test : Expr} {yes : List Statement} {no : Statement} {word : Token}
      {ts us vs ws : List Token} (condition : test.Written ts) (branch : Braced yes us)
      (pause : AreSemicolons vs) (turns : word.isKeyword "else" = true)
      (other : Alternative no ws) :
      Conditional (.ifElse test (.block yes) no) (ts ++ (us ++ (vs ++ word :: ws)))

/-- Tokens that write out the last branch of a conditional. -/
inductive Statement.Alternative : Statement → List Token → Prop
  | block {body : List Statement} {ts : List Token} (inner : Braced body ts) :
      Alternative (.block body) ts
  | conditional {word : Token} {s : Statement} {ts : List Token}
      (begins : word.isKeyword "if" = true) (inner : Conditional s ts) : Alternative s (word :: ts)

/-- Tokens that write out statements between braces. -/
inductive Statement.Braced : List Statement → List Token → Prop
  | mk {opening closing : Token} {body : List Statement} {ts : List Token}
      (opens : opening.isOperator "\x7b" = true) (inner : WrittenAll body ts)
      (closes : closing.isOperator "\x7d" = true) : Braced body (opening :: (ts ++ [closing]))

/-- Tokens that write out statements, each with semicolons after it. -/
inductive Statement.WrittenAll : List Statement → List Token → Prop
  | nil : WrittenAll [] []
  | cons {s : Statement} {rest : List Statement} {ts us vs : List Token} (first : Written s ts)
      (pause : AreSemicolons us) (pauses : us ≠ []) (others : WrittenAll rest vs) :
      WrittenAll (s :: rest) (ts ++ (us ++ vs))

end

/-! Which trees can be written out. -/

namespace Expr

mutual

/-- Whether every operation has an operator that can stand where it would be
written, and every number has the value that its text spells. -/
def printable : Expr → Bool
  | number value text => Literal.value? text = some value
  | name _ => true
  | unary op e => op.prefixPower?.isSome && e.printable
  | binary op a b => op.infixBinding?.isSome && a.printable && b.printable
  | call _ args => printableAll args

def printableAll : List Expr → Bool
  | [] => true
  | e :: rest => e.printable && printableAll rest

end

end Expr

namespace Statement

def isBlock : Statement → Bool
  | block _ => true
  | _ => false

def isConditional : Statement → Bool
  | ifThen .. | ifElse .. => true
  | _ => false

mutual

/-- Whether branches and bodies are blocks, no call passes for an expression,
and all expressions can be written out. The last branch of a conditional may be
another conditional. -/
def printable : Statement → Bool
  | expression e => !e.isCall && e.printable
  | block body => printableAll body
  | ifThen test yes => test.printable && yes.isBlock && yes.printable
  | ifElse test yes no =>
    test.printable && yes.isBlock && yes.printable && (no.isBlock || no.isConditional) &&
      no.printable
  | whileLoop test body => test.printable && body.isBlock && body.printable
  | breakLoop | continueLoop => true
  | returnValue value | endRun value | letVar _ value => value.all Expr.printable
  | constVar _ init => init.printable
  | define _ _ _ body => printableAll body
  | call _ args => Expr.printableAll args

def printableAll : List Statement → Bool
  | [] => true
  | s :: rest => s.printable && printableAll rest

end

end Statement

/-! One way to write trees out, with all tokens at offset zero. -/

namespace Token

def sign (text : String) : Token := ⟨.operator, text, 0, 0⟩

def word (text : String) : Token := ⟨.keyword, text, 0, 0⟩

def identifier (name : String) : Token := ⟨.name, name, 0, 0⟩

theorem sign_isOperator (text : String) : (sign text).isOperator text = true := by
  simp [sign, isOperator]

theorem word_isKeyword (text : String) : (word text).isKeyword text = true := by
  simp [word, isKeyword]

/-- The glyph of an operator spells it, so a tree can always be written with
glyphs. -/
theorem sign_spells (op : Operator) : (sign op.glyph).Spells op := by
  refine ⟨rfl, ?_⟩
  cases op <;> decide

theorem identifier_names (name : String) : (identifier name).Names name := ⟨rfl, rfl⟩

end Token

open Token

/-- Names with commas between them. -/
def printNames : List String → List Token
  | [] => []
  | [name] => [identifier name]
  | name :: other :: rest => identifier name :: sign "," :: printNames (other :: rest)

namespace Expr

mutual

def print : Expr → List Token
  | number _ text => [⟨.number, text, 0, 0⟩]
  | name text => [identifier text]
  | unary op e => sign "(" :: sign op.glyph :: (e.print ++ [sign ")"])
  | binary op a b => sign "(" :: (a.print ++ sign op.glyph :: (b.print ++ [sign ")"]))
  | call callee args => identifier callee :: sign "(" :: (printAll args ++ [sign ")"])

def printAll : List Expr → List Token
  | [] => []
  | [e] => e.print
  | e :: other :: rest => e.print ++ sign "," :: printAll (other :: rest)

end

/-- An expression in parentheses of its own. -/
def printGroup (e : Expr) : List Token := sign "(" :: (e.print ++ [sign ")"])

end Expr

namespace Statement

mutual

def print : Statement → List Token
  | expression e => e.print
  | block body => sign "\x7b" :: (printAll body ++ [sign "\x7d"])
  | ifThen test yes => word "if" :: (test.printGroup ++ yes.print)
  | ifElse test yes no =>
    word "if" :: (test.printGroup ++ (yes.print ++ ([sign ";"] ++ word "else" :: no.print)))
  | whileLoop test body => word "while" :: (test.printGroup ++ body.print)
  | breakLoop => [word "break"]
  | continueLoop => [word "continue"]
  | returnValue value => word "return" :: (value.map Expr.print).getD []
  | endRun value => word "end" :: (value.map Expr.print).getD []
  | letVar name none => [word "let", identifier name]
  | letVar name (some init) => word "let" :: identifier name :: sign "=" :: init.print
  | constVar name init => word "const" :: identifier name :: sign "=" :: init.print
  | define kind name params body =>
    word kind.word :: identifier name :: sign "(" ::
      (printNames params ++ sign ")" :: sign "\x7b" :: (printAll body ++ [sign "\x7d"]))
  | call callee args => (Expr.call callee args).print

/-- Statements, each with a semicolon after it. -/
def printAll : List Statement → List Token
  | [] => []
  | s :: rest => s.print ++ ([sign ";"] ++ printAll rest)

end

end Statement

/-- Induction over the names, two at a time, since the commas stand between
them. -/
theorem printNames_written (names : List String) : NamesWritten names (printNames names) := by
  match names with
  | [] => exact .nil
  | [name] => exact .one (identifier_names name)
  | name :: other :: rest =>
      exact .more (identifier_names name) (sign_isOperator ",") (printNames_written (other :: rest))

namespace Expr

mutual

/-- A printed expression is written out with every operation in parentheses. The
induction follows the tree, and the lists of arguments along with it. -/
theorem print_written (e : Expr) (h : e.printable = true) : e.Written e.print := by
  match e with
  | number value text => exact .number rfl rfl (of_decide_eq_true h)
  | name text => exact .name (identifier_names text)
  | unary op e =>
      simp only [printable, Bool.and_eq_true] at h
      obtain ⟨hOp, he⟩ := h
      exact .unary (sign_isOperator "(") (sign_spells op) hOp (print_written e he)
        (sign_isOperator ")")
  | binary op a b =>
      simp only [printable, Bool.and_eq_true] at h
      obtain ⟨⟨hOp, ha⟩, hb⟩ := h
      exact .binary (sign_isOperator "(") (print_written a ha) (sign_spells op) hOp
        (print_written b hb) (sign_isOperator ")")
  | call callee args =>
      exact .call (identifier_names callee) (sign_isOperator "(") (printAll_written args h)
        (sign_isOperator ")")

/-- The arguments of a call, as far as a comma or the parenthesis. -/
theorem printAll_written (es : List Expr) (h : printableAll es = true) :
    WrittenAll es (printAll es) := by
  match es with
  | [] => exact .nil
  | [e] => exact .one (print_written e (Bool.and_eq_true_iff.mp h).1)
  | e :: other :: rest =>
      obtain ⟨he, hRest⟩ := Bool.and_eq_true_iff.mp h
      exact .more (print_written e he) (sign_isOperator ",")
        (printAll_written (other :: rest) hRest)

end

/-- Parentheses around an expression leave it as it is. -/
theorem printGroup_written {e : Expr} (h : e.printable = true) : e.Written e.printGroup :=
  .group (sign_isOperator "(") (print_written e h) (sign_isOperator ")")

/-- A value that is left out is written with no token. -/
theorem printIfAny_written {value : Option Expr} (h : value.all printable = true) :
    WrittenIfAny value ((value.map print).getD []) := by
  cases value with
  | none => exact .none
  | some e => exact .some (print_written e h)

end Expr

theorem areSemicolons_one : AreSemicolons [sign ";"] := by
  simp [AreSemicolons, sign_isOperator]

namespace Statement

/-- A branch that has to be a block is one, so its braces can be printed. -/
theorem eq_block {s : Statement} (h : s.isBlock = true) : ∃ body, s = block body := by
  cases s with
  | block body => exact ⟨body, rfl⟩
  | _ => cases h

/-- Every conditional begins with its keyword. What comes behind it is the form
that may follow the word for a second branch. -/
theorem print_conditional {s : Statement} (h : s.isConditional = true) :
    s.print = word "if" :: s.print.tail := by
  cases s with
  | ifThen test yes => rfl
  | ifElse test yes no => rfl
  | _ => cases h

mutual

/-- A printed statement is written out, given that branches and bodies are
blocks. A body may be as large as the statement itself without its keyword, so
the measure has a second part. -/
theorem print_written (s : Statement) (h : s.printable = true) : s.Written s.print := by
  match s with
  | expression e =>
      simp only [printable, Bool.and_eq_true, Bool.not_eq_true'] at h
      exact .expression h.1 (e.print_written h.2)
  | block body => exact .block (printBraced_written body h)
  | ifThen test yes =>
      exact .conditional (word_isKeyword "if") (printConditional_written (ifThen test yes) rfl h)
  | ifElse test yes no =>
      exact .conditional (word_isKeyword "if") (printConditional_written (ifElse test yes no) rfl h)
  | whileLoop test body =>
      simp only [printable, Bool.and_eq_true] at h
      obtain ⟨⟨hTest, hBlock⟩, hBody⟩ := h
      obtain ⟨inner, rfl⟩ := eq_block hBlock
      exact .whileLoop (word_isKeyword "while") (Expr.printGroup_written hTest)
        (printBraced_written inner hBody)
  | breakLoop => exact .breakLoop (word_isKeyword "break")
  | continueLoop => exact .continueLoop (word_isKeyword "continue")
  | returnValue value => exact .returnValue (word_isKeyword "return") (Expr.printIfAny_written h)
  | endRun value => exact .endRun (word_isKeyword "end") (Expr.printIfAny_written h)
  | letVar name none => exact .letVar (word_isKeyword "let") (identifier_names name)
  | letVar name (some init) =>
      exact .letInit (word_isKeyword "let") (identifier_names name) (sign_isOperator "=")
        (init.print_written h)
  | constVar name init =>
      exact .constVar (word_isKeyword "const") (identifier_names name) (sign_isOperator "=")
        (init.print_written h)
  | define kind name params body =>
      exact .define (word_isKeyword kind.word) (identifier_names name) (sign_isOperator "(")
        (printNames_written params) (sign_isOperator ")") (printBraced_written body h)
  | call callee args => exact .call ((Expr.call callee args).print_written h)
termination_by (sizeOf s, 1)

/-- A conditional without its keyword, as it stands in a second branch. -/
theorem printConditional_written (s : Statement) (hs : s.isConditional = true)
    (h : s.printable = true) : s.Conditional s.print.tail := by
  match s with
  | ifThen test yes =>
      simp only [printable, Bool.and_eq_true] at h
      obtain ⟨⟨hTest, hBlock⟩, hYes⟩ := h
      obtain ⟨inner, rfl⟩ := eq_block hBlock
      exact .ifThen (Expr.printGroup_written hTest) (printBraced_written inner hYes)
  | ifElse test yes no =>
      simp only [printable, Bool.and_eq_true, Bool.or_eq_true] at h
      obtain ⟨⟨⟨⟨hTest, hBlock⟩, hYes⟩, hOther⟩, hNo⟩ := h
      obtain ⟨inner, rfl⟩ := eq_block hBlock
      refine .ifElse (Expr.printGroup_written hTest) (printBraced_written inner hYes)
        areSemicolons_one (word_isKeyword "else") ?_
      rcases hOther with hBlock | hConditional
      · obtain ⟨other, rfl⟩ := eq_block hBlock
        exact .block (printBraced_written other hNo)
      · rw [print_conditional hConditional]
        exact .conditional (word_isKeyword "if") (printConditional_written no hConditional hNo)
termination_by (sizeOf s, 0)

/-- The statements of a block between its braces. -/
theorem printBraced_written (body : List Statement) (h : printableAll body = true) :
    Braced body (sign "\x7b" :: (printAll body ++ [sign "\x7d"])) :=
  .mk (sign_isOperator "\x7b") (printAll_written body h) (sign_isOperator "\x7d")
termination_by (sizeOf body, 1)

/-- Each statement has one semicolon after it, and that is enough. -/
theorem printAll_written (body : List Statement) (h : printableAll body = true) :
    WrittenAll body (printAll body) := by
  match body with
  | [] => exact .nil
  | s :: rest =>
      obtain ⟨hs, hRest⟩ := Bool.and_eq_true_iff.mp h
      exact .cons (print_written s hs) areSemicolons_one (List.cons_ne_nil _ _)
        (printAll_written rest hRest)
termination_by (sizeOf body, 0)

end

end Statement

end Reckoner
