import Reckoner.Error
import Reckoner.Number.Single
import Reckoner.Operator

/-! What the operators compute. Operands are doubles and the result is rounded
to a single. A result that is not a number is an error. There is no short
circuit: both operands are always numbers. -/
namespace Reckoner.Arithmetic

/-- Every number but the two zeros counts as true. -/
def isTrue (a : Float) : Bool := a != 0.0

def ofBool (b : Bool) : Float := if b then 1.0 else 0.0

/-- The distance between one and the next single. -/
def epsilon : Float := Float.ofBits 0x3e80000000000000

/-- Equality as the language tests it: equal, or less than `epsilon` apart. -/
def nearlyEqual (a b : Float) : Bool := a == b || (a - b).abs < epsilon

/-- The remainder of a division that truncates: it has the sign of the dividend
and is exact. An infinite divisor leaves a finite dividend as it is. There is no
remainder when the dividend is infinite and the divisor a number. -/
def remainder? (a b : Float) : Option Float :=
  if Number.isNaN a then some a
  else if Number.isNaN b then some b
  else if !Number.isFinite a then none
  else if !Number.isFinite b then some a
  else some (Number.ofUnits (Number.isNegative a) (Number.units a % Number.units b) 1)

def divide (a b : Float) : Except Failure Float :=
  if b == 0.0 then .error (.math .divisionByZero) else .ok (a / b)

def modulo (a b : Float) : Except Failure Float :=
  if b == 0.0 then .error (.math .moduloByZero)
  else match remainder? a b with
    | some r => .ok r
    | none => .error .undefinedRemainder

/-- A negative base takes whole exponents only, and a zero to a negative power
is infinite, whatever the sign of the zero. -/
def power (base exponent : Float) : Except Failure Float :=
  if base < 0.0 && !Number.isWhole exponent then .error (.math .invalidExponentiation)
  else if base == 0.0 && exponent < 0.0 then .ok (Number.infinity false)
  else .ok (base.pow exponent)

/-- The root of a degree, as the power of its reciprocal. -/
def root (degree radicand : Float) : Except Failure Float :=
  if degree == 0.0 then .error (.math .zerothRoot)
  else if radicand < 0.0 && !Number.isWhole (1.0 / degree) then .error (.math .negativeRoot)
  else power radicand (1.0 / degree)

/-- The exact or double result of an operator between two numbers. -/
def binary (op : Operator) (a b : Float) : Except Failure Float :=
  let truth (r : Bool) : Except Failure Float := .ok (ofBool r)
  match op with
  | .add => .ok (a + b)
  | .sub => .ok (a - b)
  | .mul => .ok (a * b)
  | .div => divide a b
  | .mod => modulo a b
  | .pow => power a b
  | .root => root a b
  | .and => truth (isTrue a && isTrue b)
  | .or => truth (isTrue a || isTrue b)
  | .xor => truth (isTrue a != isTrue b)
  | .xnor => truth (isTrue a == isTrue b)
  | .nand => truth (!(isTrue a && isTrue b))
  | .nor => truth (!(isTrue a || isTrue b))
  | .lt => truth (a < b)
  | .gt => truth (b < a)
  | .le => truth (a ≤ b)
  | .ge => truth (b ≤ a)
  | .eq => truth (nearlyEqual a b)
  | .ne => truth (!nearlyEqual a b)
  | .dot => .ok b
  | .assign | .not => .error (.math (.unsupportedOperator op.glyph))

/-- The exact or double result of an operator before a number. -/
def unary (op : Operator) (a : Float) : Except Failure Float :=
  match op with
  | .sub => .ok (-a)
  | .add => .ok a
  | .not => .ok (ofBool (!isTrue a))
  | .root => root 2.0 a
  | _ => .error (.math (.unsupportedOperator op.glyph))

/-- Rounds a result to a single and refuses what is not a number. -/
def settle (result : Except Failure Float) : Except Failure Float := do
  let r := Number.toSingle (← result)
  if Number.isNaN r then .error (.math .notANumber) else .ok r

end Reckoner.Arithmetic
