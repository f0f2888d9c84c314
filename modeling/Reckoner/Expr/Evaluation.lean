import Reckoner.Arithmetic
import Reckoner.Builtin
import Reckoner.Expr
import Reckoner.Table

/-! The value of an expression. An expression reads a table and never changes
it: an assignment inside an expression is checked and has a value, but only a
statement stores it. How a declared function is carried out is a parameter. -/
namespace Reckoner

/-- How a subroutine is carried out with arguments on behalf of a caller that
sees a table. It gives the scope in which the body ran, and the value. -/
abbrev Activation := Subroutine → List Float → Table → Evaluation (Table × Option Float)

namespace Expr

/-- The value of a name: of the variable in the table, or else of the constant. -/
def lookup (table : Table) (name : String) : Except Failure Float :=
  match table.get? name, Constant.value? name with
  | some value, _ => .ok value
  | none, some value => .ok value
  | none, none => .error (.symbol (.variableNotFound name))

/-- Checks the target of an assignment. A name that is not there is reported by
`absent`. -/
def checkTarget (table : Table) (absent : String → SymbolError) : Expr → Except Failure Unit
  | .name x =>
    if Constant.contains x then .error (.symbol (.immutableConstant x))
    else if table.contains x then .ok ()
    else .error (.symbol (absent x))
  | e => .error (.symbol (.invalidIdentifier e.render))

/-- The error of a call of a function that is not there. A procedure of that
name is no substitute. -/
def uncallable (table : Table) (name : String) : Failure :=
  if table.procedures.contains name then
    .flow (.unimplementedFeature
      ("Procedure '" ++ name ++ "' cannot be called as a function expression"))
  else .flow (.notFound name)

mutual

/-- The value of an expression. The operands of an operator are all evaluated
before it is applied, and so are the arguments of a call. The functions that
every program knows come before declared ones of the same name. -/
def evaluate (policy : Policy) (activate : Activation) (table : Table) : Expr → Evaluation Float
  | number value _ => pure value
  | name x => Evaluation.ofExcept (lookup table x)
  | unary op e => do
    let a ← evaluate policy activate table e
    Evaluation.ofExcept (Arithmetic.settle (Arithmetic.unary op a))
  | binary .assign target e => do
    Evaluation.ofExcept (checkTarget table .variableNotFound target)
    evaluate policy activate table e
  | binary op left right => do
    let a ← evaluate policy activate table left
    let b ← evaluate policy activate table right
    Evaluation.ofExcept (Arithmetic.settle (Arithmetic.binary op a b))
  | call callee args =>
    match Builtin.ofName? callee with
    | some builtin => do
      let values ← evaluateAll policy activate table args
      builtin.call policy values
    | none =>
      match table.functions[callee]? with
      | some function => do
        let values ← evaluateAll policy activate table args
        let (_, value) ← activate function values table
        return value.getD 0.0
      | none => throw (uncallable table callee)

/-- The values of expressions, from left to right. -/
def evaluateAll (policy : Policy) (activate : Activation) (table : Table) :
    List Expr → Evaluation (List Float)
  | [] => pure []
  | e :: rest => do
    let value ← evaluate policy activate table e
    let values ← evaluateAll policy activate table rest
    return value :: values

end

end Expr

end Reckoner
