/-! The operators of the language, how they are spelled, and how tightly they
bind. An operator may stand between two operands, before one, or both. -/
namespace Reckoner

inductive Operator where
  | assign
  | and | or | xor | xnor | nand | nor
  | lt | gt | ge | le | eq | ne
  | add | sub
  | mul | div | mod
  | pow | root
  | dot
  | not
  deriving DecidableEq, Repr

/-- How an operator between two operands binds. A larger power binds tighter.
`left` is compared with the least power that the context admits, and `right` is
the least power that the right operand admits. -/
structure Binding where
  left : Rat
  right : Rat
  leftAssociative : Bool
  deriving DecidableEq, Repr

/-- Whether an operator that binds in this way may go on in a context that
admits no power below `least`. On a tie only the left-associative ones may. -/
def Binding.admits (b : Binding) (least : Rat) : Bool :=
  if b.leftAssociative then least ≤ b.left else least < b.left

namespace Operator

/-- The one spelling under which an operator is shown. -/
def glyph : Operator → String
  | assign => "="
  | and => "&&" | or => "||" | xor => "^^" | xnor => "!^" | nand => "!&" | nor => "!|"
  | lt => "<" | gt => ">" | ge => ">=" | le => "<=" | eq => "==" | ne => "!="
  | add => "+" | sub => "-"
  | mul => "*" | div => "/" | mod => "%"
  | pow => "^" | root => "√"
  | dot => "."
  | not => "!"

def all : List Operator :=
  [assign, and, or, xor, xnor, nand, nor, lt, gt, ge, le, eq, ne, add, sub, mul, div, mod,
    pow, root, dot, not]

/-- Reads an operator. Besides its own glyph, `&&` may be written `&` and `||`
may be written `|`. -/
def ofGlyph? (text : String) : Option Operator :=
  if text = "&" then some and
  else if text = "|" then some or
  else all.find? fun op => op.glyph = text

/-- The arithmetic behind an assignment that also computes, such as `+=`. -/
def ofAugmented? (text : String) : Option Operator :=
  [add, sub, mul, div, mod, pow].find? fun op => op.glyph ++ "=" = text

/-- How an operator binds between two operands. `!` never stands there. -/
def infixBinding? : Operator → Option Binding
  | assign => some ⟨2 / 10, 1 / 10, false⟩
  | and | or | xor | xnor | nand | nor => some ⟨3 / 10, 4 / 10, true⟩
  | lt | gt | ge | le | eq | ne => some ⟨5 / 10, 6 / 10, true⟩
  | add | sub => some ⟨1, 11 / 10, true⟩
  | mul | div | mod => some ⟨2, 21 / 10, true⟩
  | pow | root => some ⟨4, 39 / 10, false⟩
  | dot => some ⟨5, 51 / 10, true⟩
  | not => none

/-- The power of an operator before its operand, for those that stand there. -/
def prefixPower? : Operator → Option Rat
  | sub | add | not | root => some 20
  | _ => none

end Operator

end Reckoner
