import Reckoner.Number.Text
import Reckoner.Run

/-! The functions that every program knows. Their results are rounded to
singles. Except for `rand`, none makes anything but a number out of numbers:
where the mathematical function is undefined, that is an error. -/
namespace Reckoner

inductive Builtin where
  | sin | cos | tan
  | cot | sec | csc
  | asin | acos | atan | atan2
  | log | sqrt | abs
  | min | max
  | rand
  deriving DecidableEq, Repr

namespace Builtin

def name : Builtin → String
  | sin => "sin" | cos => "cos" | tan => "tan"
  | cot => "cot" | sec => "sec" | csc => "csc"
  | asin => "asin" | acos => "acos" | atan => "atan" | atan2 => "atan2"
  | log => "log" | sqrt => "sqrt" | abs => "abs"
  | min => "min" | max => "max"
  | rand => "rand"

def all : List Builtin :=
  [sin, cos, tan, cot, sec, csc, asin, acos, atan, atan2, log, sqrt, abs, min, max, rand]

def ofName? (name : String) : Option Builtin := all.find? fun b => b.name = name

/-- The least and the largest number of arguments. -/
def arity : Builtin → Nat × Nat
  | atan2 => (0, 255)
  | min | max => (2, 255)
  | rand => (0, 2)
  | _ => (1, 1)

/-- The error of a call with the wrong number of arguments. It names the bound
that was missed. -/
def miscount (b : Builtin) (count : Nat) : Failure :=
  let expected := if count < b.arity.1 then b.arity.1 else b.arity.2
  .flow (.wrongArgumentCount b.name expected count)

/-- The error of a function at arguments where it is undefined. -/
def undefinedAt (b : Builtin) (args : List Float) : Failure :=
  .math (.domain (b.name ++ "(" ++ ", ".intercalate (args.map Number.plain) ++ ") is undefined"))

/-- One over a number, unless that is zero. -/
def reciprocal? (x : Float) : Option Float := if x == 0.0 then none else some (1.0 / x)

/-- The first of the least arguments. Arguments that are not numbers are neither
less nor greater than any. -/
def least (first : Float) (rest : List Float) : Float :=
  rest.foldl (fun best x => if x < best then x else best) first

/-- The first of the greatest arguments. -/
def greatest (first : Float) (rest : List Float) : Float :=
  rest.foldl (fun best x => if best < x then x else best) first

/-- The value of a function of one argument, where it has one. -/
def value? : Builtin → Float → Option Float
  | sin, x => some x.sin
  | cos, x => some x.cos
  | tan, x => some x.tan
  | cot, x => reciprocal? x.tan
  | sec, x => reciprocal? x.cos
  | csc, x => reciprocal? x.sin
  | asin, x => some x.asin
  | acos, x => some x.acos
  | atan, x => some x.atan
  | log, x => if x ≤ 0.0 then none else some x.log
  | sqrt, x => if x < 0.0 then none else some x.sqrt
  | abs, x => some x.abs
  | _, _ => none

/-- Accepts a value that is a number, or that comes from an argument that is not
one. -/
def defined (b : Builtin) (args : List Float) : Option Float → Except Failure Float
  | some r => if Number.isNaN r && !args.any Number.isNaN then .error (b.undefinedAt args) else .ok r
  | none => .error (b.undefinedAt args)

/-- The value of a call, before it is rounded. -/
def apply (policy : Policy) (b : Builtin) (args : List Float) : Evaluation Float :=
  match b, args with
  | rand, [] => Evaluation.draw policy
  | rand, [bound] => do return (← Evaluation.draw policy) * bound
  | rand, [low, high] => do
    if high ≤ low then throw (.math (.unsupportedFunction "rand(min, max) requires min < max"))
    else return low + (high - low) * (← Evaluation.draw policy)
  | atan2, [y, x] => Evaluation.ofExcept (b.defined args (some (Float.atan2 y x)))
  | atan2, _ => throw (.math (.unsupportedFunction "atan2 requires exactly 2 arguments"))
  | min, first :: rest => pure (least first rest)
  | max, first :: rest => pure (greatest first rest)
  | b, [x] => Evaluation.ofExcept (b.defined args (b.value? x))
  | b, args => throw (b.miscount args.length)

/-- Calls a function with numbers. -/
def call (policy : Policy) (b : Builtin) (args : List Float) : Evaluation Float := do
  if args.length < b.arity.1 ∨ b.arity.2 < args.length then throw (b.miscount args.length)
  return Number.toSingle (← b.apply policy args)

end Builtin

end Reckoner
