import Reckoner.Token

/-! What can go wrong, by cause. A cause says what happened; its wording is a
function of it. Errors fall into families: a text cannot be read, an expression
or statement cannot be carried out, or the run as a whole is stopped. -/
namespace Reckoner

/-- Why a text cannot be read. -/
inductive ParseError.Cause where
  | emptyInput
  /-- A token that fits nowhere. A description other than the token's own may be given. -/
  | unexpectedToken (description : Option String)
  | unmatchedParenthesis
  | expectedToken (expected : String)
  | expectedIdentifier
  | expectedBlock
  | invalidNumber
  | malformed (detail : String)
  | other (detail : Option String)
  deriving DecidableEq, Repr

/-- A text that cannot be read, with the token at which reading stopped. -/
structure ParseError where
  cause : ParseError.Cause
  token : Option Token
  deriving DecidableEq, Repr

inductive MathError where
  | divisionByZero
  | moduloByZero
  | invalidExponentiation
  | negativeRoot
  | zerothRoot
  | unsupportedOperator (operator : String)
  | unsupportedFunction (detail : String)
  | domain (detail : String)
  | overflow
  | notANumber
  | other (detail : Option String)
  deriving DecidableEq, Repr

inductive SymbolError where
  | variableNotFound (name : String)
  | undeclaredVariable (name : String)
  | immutableConstant (name : String)
  | redefinition (name : String)
  | invalidIdentifier (name : String)
  | other (detail : Option String)
  deriving DecidableEq, Repr

inductive FlowError where
  | breakOutsideLoop
  | continueOutsideLoop
  | invalidReturn (detail : String)
  | unimplementedFeature (detail : String)
  | alreadyDefined (name kind : String)
  | notFound (name : String)
  | wrongArgumentCount (name : String) (expected got : Int)
  | other (detail : Option String)
  deriving DecidableEq, Repr

/-- Why an expression has no value or a statement no effect. -/
inductive EvalError where
  | math (error : MathError)
  | symbol (error : SymbolError)
  | flow (error : FlowError)
  | other (detail : Option String)
  deriving DecidableEq, Repr

/-- Why a run as a whole is stopped. -/
inductive RunError where
  | stackOverflow
  | timeout
  | iterationsExceeded (limit : Int)
  | other (detail : Option String)
  deriving DecidableEq, Repr

inductive Error where
  | parse (error : ParseError)
  | eval (error : EvalError)
  | run (error : RunError)
  | other (detail : Option String)
  deriving DecidableEq, Repr

/-- A token, or the lack of one, as messages name it. -/
def describeToken : Option Token → String
  | none => "nothing"
  | some token => token.describe

def ParseError.message (e : ParseError) : String :=
  match e.cause with
  | .emptyInput => "Empty input. Please enter an expression."
  | .unexpectedToken description =>
    "Unexpected token: " ++ match description with
      | some text => if text = "" then describeToken e.token else text
      | none => describeToken e.token
  | .unmatchedParenthesis => "Unmatched parenthesis."
  | .expectedToken expected =>
    "Expected " ++ expected ++ ", but found " ++ describeToken e.token ++ " instead."
  | .expectedIdentifier => "Expected an identifier, but found " ++ describeToken e.token ++ "."
  | .expectedBlock => "Expected a code block enclosed in curly braces \x7b\x7d."
  | .invalidNumber => "Invalid number format: " ++ (e.token.map (·.text)).getD ""
  | .malformed detail => "Syntax error: " ++ detail
  | .other detail => detail.getD "ParseError"

def MathError.message : MathError → String
  | .divisionByZero => "Division by zero error. Cannot divide by zero."
  | .moduloByZero => "Modulo by zero error. Cannot compute modulo with zero divisor."
  | .invalidExponentiation =>
    "Invalid exponentiation. Cannot raise a negative number to a fractional power."
  | .negativeRoot => "Cannot compute roots of negative numbers with non-integer degree."
  | .zerothRoot => "Cannot compute the zeroth root of a number (mathematically undefined)."
  | .unsupportedOperator operator => "Unsupported operator: " ++ operator
  | .unsupportedFunction detail => "Unsupported function: " ++ detail
  | .domain detail => "Math domain error: " ++ detail
  | .overflow => "Numerical overflow or underflow occurred."
  | .notANumber => "Operation resulted in not-a-number (NaN)."
  | .other detail => detail.getD "MathError"

def SymbolError.message : SymbolError → String
  | .variableNotFound name =>
    "Variable '" ++ name ++ "' not found. Make sure it is defined before use."
  | .undeclaredVariable name =>
    "Undeclared variable: '" ++ name ++
      "'. Variables must be declared with 'let' before assignment."
  | .immutableConstant name => "Cannot modify constant: '" ++ name ++ "'. Constants are immutable."
  | .redefinition name => "Redefinition of '" ++ name ++ "' in the same scope."
  | .invalidIdentifier name => "Invalid identifier name: '" ++ name ++ "'."
  | .other detail => detail.getD "SymbolError"

def FlowError.message : FlowError → String
  | .breakOutsideLoop =>
    "Break statement used outside a loop. 'break' can only be used within a 'while' loop."
  | .continueOutsideLoop =>
    "Continue statement used outside a loop. 'continue' can only be used within a 'while' loop."
  | .invalidReturn detail => "Invalid return statement usage: " ++ detail
  | .unimplementedFeature detail => "Unimplemented feature: " ++ detail
  | .alreadyDefined name kind => kind ++ " '" ++ name ++ "' already defined in the same scope."
  | .notFound name =>
    "No callable item named '" ++ name ++
      "' was found. Make sure it is defined before calling it."
  | .wrongArgumentCount name expected got =>
    "Callable '" ++ name ++ "' called with wrong number of arguments. Expected " ++
      toString expected ++ ", got " ++ toString got ++ "."
  | .other detail => detail.getD "ControlFlowError"

def EvalError.message : EvalError → String
  | .math e => e.message
  | .symbol e => e.message
  | .flow e => e.message
  | .other detail => detail.getD "EvalError"

def RunError.message : RunError → String
  | .stackOverflow => "Stack overflow: execution too deeply nested"
  | .timeout => "Execution timeout exceeded"
  | .iterationsExceeded limit => "Maximum iterations exceeded (limit " ++ toString limit ++ ")"
  | .other detail => detail.getD "ExecutionError"

def Error.message : Error → String
  | .parse e => e.message
  | .eval e => e.message
  | .run e => e.message
  | .other detail => detail.getD "InterpreterError"

/-- The word that stands before a message. It tells the families apart. -/
def Error.tag : Error → String
  | .parse _ => "SyntaxError"
  | .eval _ => "RuntimeError"
  | .run _ => "ExecutionError"
  | .other _ => "Error"

/-- The one line in which an error is reported. -/
def Error.describe (e : Error) : String := e.tag ++ ": " ++ e.message

/-- How reading or running a program can fail to give a result. Besides the
errors of the language there are three ways that no program can ask about: a
remainder that arithmetic leaves undefined, nesting beyond what is allowed, and
a loop that outlasts the patience of a run without a step limit. -/
inductive Failure where
  | error (error : Error)
  | undefinedRemainder
  | tooDeep
  | endless
  deriving DecidableEq, Repr

namespace Failure

@[match_pattern] abbrev parse (cause : ParseError.Cause) (token : Token) : Failure :=
  .error (.parse ⟨cause, some token⟩)

@[match_pattern] abbrev math (e : MathError) : Failure := .error (.eval (.math e))

@[match_pattern] abbrev symbol (e : SymbolError) : Failure := .error (.eval (.symbol e))

@[match_pattern] abbrev flow (e : FlowError) : Failure := .error (.eval (.flow e))

@[match_pattern] abbrev run (e : RunError) : Failure := .error (.run e)

end Failure

end Reckoner
