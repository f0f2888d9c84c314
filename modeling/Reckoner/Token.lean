/-! Tokens: the pieces that a text is read in, each with the stretch of text it
came from. Offsets count characters. -/
namespace Reckoner

inductive Token.Kind where
  | number | name | keyword | operator | augmented | finish
  deriving DecidableEq, Repr

/-- The name of a kind in messages. -/
def Token.Kind.label : Token.Kind → String
  | number => "number"
  | name => "name"
  | keyword => "keyword"
  | operator => "operator"
  | augmented => "augmented"
  | finish => "end"

/-- A token. Its text is the stretch from `start` to `stop`, except that the
words for true and false become the numbers one and zero. -/
structure Token where
  kind : Token.Kind
  text : String
  start : Nat
  stop : Nat
  deriving DecidableEq, Repr

namespace Token

/-- The token that stands after the last character of a text. -/
def finish (length : Nat) : Token := ⟨.finish, "", length, length⟩

def isFinish (t : Token) : Bool := t.kind == .finish

def isOperator (t : Token) (text : String) : Bool := t.kind == .operator && t.text == text

def isKeyword (t : Token) (text : String) : Bool := t.kind == .keyword && t.text == text

/-- The token as messages name it. -/
def describe (t : Token) : String :=
  if t.isFinish then "end of input" else t.kind.label ++ " '" ++ t.text ++ "'"

end Token

end Reckoner
