import Reckoner.Expr

/-! Statements, the subroutines that they declare, and the names that a body
declares for itself. -/
namespace Reckoner

/-- Functions give a value to an expression; procedures are called for their
effect on the variables of the caller. -/
inductive Subroutine.Kind where
  | function
  | procedure
  deriving DecidableEq, Repr

def Subroutine.Kind.label : Subroutine.Kind → String
  | function => "Function"
  | procedure => "Procedure"

/-- A statement. A chain of alternatives is a conditional in the last branch of
another. A call that stands by itself is a statement of its own, because it may
call a procedure. -/
inductive Statement where
  | expression (e : Expr)
  | block (body : List Statement)
  | ifThen (test : Expr) (yes : Statement)
  | ifElse (test : Expr) (yes no : Statement)
  | whileLoop (test : Expr) (body : Statement)
  | breakLoop
  | continueLoop
  | returnValue (value : Option Expr)
  | endRun (value : Option Expr)
  | letVar (name : String) (init : Option Expr)
  | constVar (name : String) (init : Expr)
  | define (kind : Subroutine.Kind) (name : String) (params : List String)
      (body : List Statement)
  | call (name : String) (args : List Expr)

/-- What a subroutine declaration leaves in a table. -/
structure Subroutine where
  name : String
  params : List String
  body : List Statement

/-- The subroutine with its kind and its parameters, for inspection. -/
def Subroutine.inspect (s : Subroutine) (kind : Subroutine.Kind) : String :=
  "<" ++ kind.label ++ " " ++ s.name ++ "(" ++ ", ".intercalate s.params ++ ")>"

namespace Statement

/-- The names that a statement declares in the scope it runs in. Branches and
loop bodies count, unless they are blocks: a block keeps its declarations. -/
def declares : Statement → List String
  | letVar name _ => [name]
  | constVar name _ => [name]
  | ifThen _ yes => yes.declares
  | ifElse _ yes no => yes.declares ++ no.declares
  | whileLoop _ body => body.declares
  | _ => []

/-- The names that a body declares for itself, which are not copied back. -/
def shadows : Statement → List String
  | block body => body.flatMap declares
  | s => s.declares

end Statement

end Reckoner
