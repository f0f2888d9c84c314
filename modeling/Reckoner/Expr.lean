import Reckoner.Operator

/-! Expressions, and their text in which every operation is parenthesised and
stands before its operands. -/
namespace Reckoner

/-- An expression. A number keeps the text it was written with, and its value
was settled when it was read. -/
inductive Expr where
  | number (value : Float) (text : String)
  | name (text : String)
  | unary (op : Operator) (operand : Expr)
  | binary (op : Operator) (left right : Expr)
  | call (name : String) (args : List Expr)
  deriving Inhabited

namespace Expr

mutual

/-- The expression in parenthesised form, operators first. -/
def render : Expr → String
  | number _ text => text
  | name text => text
  | unary op e => "(" ++ op.glyph ++ " " ++ e.render ++ ")"
  | binary op a b => "(" ++ op.glyph ++ " " ++ a.render ++ " " ++ b.render ++ ")"
  | call callee args => callee ++ "(" ++ ", ".intercalate (renderAll args) ++ ")"

def renderAll : List Expr → List String
  | [] => []
  | e :: rest => e.render :: renderAll rest

end

/-- The name of the kind of an expression. -/
def kindName : Expr → String
  | number .. => "Number"
  | name .. => "Name"
  | unary .. => "Operation"
  | binary .. => "Operation"
  | call .. => "FunctionCall"

/-- The expression with the name of its kind, for inspection. -/
def inspect (e : Expr) : String := "<" ++ e.kindName ++ " " ++ e.render ++ ">"

end Expr

end Reckoner
