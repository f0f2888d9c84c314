import Reckoner.Token
import Reckoner.Token.Pattern

/-! The lexicon: which stretches of text make which tokens. At each place the
longest match of any rule wins, and of rules that match equally far the
earliest. Every text can be read, because the last rule takes any character. -/
namespace Reckoner

namespace Lexicon

/-- What a rule makes of the text that it matches. -/
inductive Action where
  | skip
  | emit (kind : Token.Kind)
  | word
  | openComment
  | closeComment
  deriving DecidableEq, Repr

structure Rule where
  pattern : Pattern
  action : Action

/-- Which rules are in force. -/
inductive Mode where
  | code
  | comment
  deriving DecidableEq, Repr

/-- Blank characters of the language: horizontal tab to carriage return, and the space. -/
def isBlank (c : Char) : Bool := (9 ≤ c.toNat && c.toNat ≤ 13) || c == ' '

/-- Characters that end a line comment: line feed to carriage return. -/
def isLineEnd (c : Char) : Bool := 10 ≤ c.toNat && c.toNat ≤ 13

def isHexDigit (c : Char) : Bool :=
  c.isDigit || ('a' ≤ c && c ≤ 'f') || ('A' ≤ c && c ≤ 'F')

def isWordStart (c : Char) : Bool := c.isAlpha || c == '_'

def isWordChar (c : Char) : Bool := c.isAlphanum || c == '_'

open Pattern

def digits : Pattern := repeated (char Char.isDigit)

def literal (text : String) : Pattern := Pattern.word text.toList

/-- The rules outside block comments. -/
def codeRules : List Rule :=
  [⟨repeated (char isBlank), .skip⟩,
   ⟨concat (literal "//") (many (char fun c => !isLineEnd c)), .skip⟩,
   ⟨literal "/*", .openComment⟩,
   ⟨concat (char (· == '0')) (concat (oneOf ['x', 'X']) (many (char isHexDigit))), .emit .number⟩,
   ⟨concat (char (· == '0')) (concat (oneOf ['b', 'B']) (many (oneOf ['0', '1']))), .emit .number⟩,
   ⟨either (concat digits (optional (concat (char (· == '.')) digits)))
      (concat (char (· == '.')) digits), .emit .number⟩,
   ⟨concat (char isWordStart) (many (char isWordChar)), .word⟩,
   ⟨concat (oneOf ['-', '+', '*', '%', '^', '/']) (char (· == '=')), .emit .augmented⟩,
   ⟨anyOf (["==", "<=", ">=", "!=", "!^", "!&", "!|", "^^", "&&", "||"].map literal), .emit .operator⟩,
   ⟨oneOf ['-', '+', '*', '%', '^', '=', '<', '>', '!', '|', '&', '/', '√'], .emit .operator⟩,
   ⟨oneOf ['(', ')', '\x7b', '\x7d', ';', ',', '.'], .emit .operator⟩,
   ⟨char fun _ => true, .skip⟩]

/-- The rules inside a block comment. A comment that is never closed runs to the
end of the text. -/
def commentRules : List Rule :=
  [⟨literal "*/", .closeComment⟩,
   ⟨repeated (char (· != '*')), .skip⟩,
   ⟨char (· == '*'), .skip⟩]

def rules : Mode → List Rule
  | .code => codeRules
  | .comment => commentRules

/-- The words with a meaning of their own, which cannot be names. -/
def keywords : List String :=
  ["if", "else", "while", "break", "continue", "return", "let", "const", "end", "fn", "proc"]

/-- What a word stands for: a truth value, a keyword, or a name. -/
def classifyWord (text : String) : Token.Kind × String :=
  if text = "true" then (.number, "1")
  else if text = "false" then (.number, "0")
  else if text ∈ keywords then (.keyword, text)
  else (.name, text)

/-- The longest match among the rules, the earliest of equals. -/
def best? (text : List Char) : List Rule → Option (Nat × Action)
  | [] => none
  | rule :: rest =>
    match rule.pattern.longest? text, best? text rest with
    | none, later => later
    | some n, none => some (n, rule.action)
    | some n, some (m, action) => if n < m then some (m, action) else some (n, rule.action)

/-- The token, if any, that an action makes of the matched text. -/
def Action.token? (action : Action) (text : String) (start stop : Nat) : Option Token :=
  match action with
  | .emit kind => some ⟨kind, text, start, stop⟩
  | .word => some ⟨(classifyWord text).1, (classifyWord text).2, start, stop⟩
  | _ => none

/-- The rules in force after an action. -/
def Action.next : Action → Mode → Mode
  | .openComment, _ => .comment
  | .closeComment, _ => .code
  | _, mode => mode

/-- The tokens of a text that starts at offset `pos`, without the closing one.
The first `skip` characters belong to a match that was already dealt with. -/
def scan (mode : Mode) (pos skip : Nat) : List Char → List Token
  | [] => []
  | c :: rest =>
    match skip with
    | k + 1 => scan mode (pos + 1) k rest
    | 0 =>
      match best? (c :: rest) (rules mode) with
      | some (n + 1, action) =>
        let text := String.ofList ((c :: rest).take (n + 1))
        (action.token? text pos (pos + (n + 1))).toList ++
          scan (action.next mode) (pos + 1) n rest
      | _ => scan mode (pos + 1) 0 rest

end Lexicon

/-- The tokens of a text, closed by the one that marks its end. -/
def tokenize (text : String) : List Token :=
  Lexicon.scan .code 0 0 text.toList ++ [Token.finish text.length]

end Reckoner
