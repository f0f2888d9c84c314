import Reckoner.Expr.Reading
import Reckoner.Statement

/-! Reading statements from tokens. A statement is known by its first token.
Semicolons separate statements, but none is required and any number will do. -/
namespace Reckoner

namespace Reading

def skipSemicolons (ts : List Token) : List Token := ts.dropWhile (·.isOperator ";")

/-- The value after a word that can do without one. -/
def optionalExpression (ts : List Token) : Except Failure (Option Expr × List Token) :=
  let t := peek ts
  if t.isFinish || t.kind == .keyword || t.isOperator ";" || t.isOperator "\x7d" then .ok (none, ts)
  else do
    let (e, ts) ← Expr.read 0 ts
    .ok (some e, ts)

/-- The declaration of a variable, from after its first word. -/
def letVar (ts : List Token) : Except Failure (Statement × List Token) := do
  let (name, ts) ← expectName ts
  if (peek ts).isOperator "=" then do
    let (init, ts) ← Expr.read 0 ts.tail
    .ok (.letVar name (some init), ts)
  else .ok (.letVar name none, ts)

/-- The declaration of a constant, from after its first word. -/
def constVar (ts : List Token) : Except Failure (Statement × List Token) := do
  let (name, ts) ← expectName ts
  let ts ← expectOperator "=" ts
  let (init, ts) ← Expr.read 0 ts
  .ok (.constVar name init, ts)

/-- One or more names with commas between them. -/
def names : Nat → List Token → Except Failure (List String × List Token)
  | 0, _ => .error .tooDeep
  | fuel + 1, ts => do
    let (first, ts) ← expectName ts
    if (peek ts).isOperator "," then do
      let (rest, ts) ← names fuel ts.tail
      .ok (first :: rest, ts)
    else .ok ([first], ts)

/-- The name and the parameters of a subroutine. -/
def signature (ts : List Token) : Except Failure ((String × List String) × List Token) := do
  let (name, ts) ← expectName ts
  let ts ← expectOperator "(" ts
  if (peek ts).isOperator ")" then .ok ((name, []), ts.tail)
  else do
    let (params, ts) ← names (budget ts) ts
    let ts ← expectOperator ")" ts
    .ok ((name, params), ts)

/-- An expression as a statement. A call by itself becomes a call statement. -/
def simple (ts : List Token) : Except Failure (Statement × List Token) := do
  let (e, ts) ← Expr.read 0 ts
  match e with
  | .call name args => .ok (.call name args, ts)
  | e => .ok (.expression e, ts)

mutual

/-- A statement and the semicolons after it. -/
def statement : Nat → List Token → Except Failure (Statement × List Token)
  | 0, _ => .error .tooDeep
  | fuel + 1, ts => do
    let t := peek ts
    let (s, ts) ←
      match t.kind with
      | .finish => reject .emptyInput t
      | .keyword => phrase fuel t ts.tail
      | _ =>
        if t.isOperator "\x7b" then do
          let (body, ts) ← block fuel ts
          .ok (.block body, ts)
        else simple ts
    .ok (s, skipSemicolons ts)

/-- The statement that a keyword begins, from after the keyword. -/
def phrase : Nat → Token → List Token → Except Failure (Statement × List Token)
  | 0, _, _ => .error .tooDeep
  | fuel + 1, t, ts =>
    match t.text with
    | "if" => conditional fuel ts
    | "while" => do
      let (test, ts) ← Expr.read 0 ts
      let (body, ts) ← body fuel ts
      .ok (.whileLoop test body, ts)
    | "break" => .ok (.breakLoop, ts)
    | "continue" => .ok (.continueLoop, ts)
    | "return" => do
      let (value, ts) ← optionalExpression ts
      .ok (.returnValue value, ts)
    | "end" => do
      let (value, ts) ← optionalExpression ts
      .ok (.endRun value, ts)
    | "let" => letVar ts
    | "const" => constVar ts
    | "fn" => subroutine fuel .function ts
    | "proc" => subroutine fuel .procedure ts
    | _ => reject (.unexpectedToken none) t

/-- A conditional, from after its first word. -/
def conditional : Nat → List Token → Except Failure (Statement × List Token)
  | 0, _ => .error .tooDeep
  | fuel + 1, ts => do
    let (test, ts) ← Expr.read 0 ts
    let (yes, ts) ← body fuel ts
    let ts := skipSemicolons ts
    if (peek ts).isKeyword "else" then
      let ts := ts.tail
      let (no, ts) ←
        if (peek ts).isKeyword "if" then conditional fuel ts.tail else body fuel ts
      .ok (.ifElse test yes no, ts)
    else .ok (.ifThen test yes, ts)

/-- The declaration of a subroutine, from after its first word. -/
def subroutine : Nat → Subroutine.Kind → List Token → Except Failure (Statement × List Token)
  | 0, _, _ => .error .tooDeep
  | fuel + 1, kind, ts => do
    let ((name, params), ts) ← signature ts
    let (body, ts) ← block fuel ts
    .ok (.define kind name params body, ts)

/-- What a branch or a loop carries out: a block or a single statement. -/
def body : Nat → List Token → Except Failure (Statement × List Token)
  | 0, _ => .error .tooDeep
  | fuel + 1, ts =>
    let ts := skipSemicolons ts
    if (peek ts).isOperator "\x7b" then do
      let (body, ts) ← block fuel ts
      .ok (.block body, ts)
    else statement fuel ts

/-- Statements between braces. -/
def block : Nat → List Token → Except Failure (List Statement × List Token)
  | 0, _ => .error .tooDeep
  | fuel + 1, ts =>
    if (peek ts).isOperator "\x7b" then blockRest fuel ts.tail
    else reject .expectedBlock (peek ts)

/-- Statements up to and including the closing brace. -/
def blockRest : Nat → List Token → Except Failure (List Statement × List Token)
  | 0, _ => .error .tooDeep
  | fuel + 1, ts =>
    let ts := skipSemicolons ts
    if (peek ts).isOperator "\x7d" then .ok ([], ts.tail)
    else if (peek ts).isFinish then reject .expectedBlock (peek ts)
    else do
      let (first, ts) ← statement fuel ts
      let (rest, ts) ← blockRest fuel ts
      .ok (first :: rest, ts)

end

/-- Statements up to the end of the tokens. -/
def statements : Nat → List Token → Except Failure (List Statement)
  | 0, _ => .error .tooDeep
  | fuel + 1, ts =>
    if (peek ts).isFinish then .ok []
    else do
      let (first, ts) ← statement (budget ts) ts
      let rest ← statements fuel ts
      .ok (first :: rest)

end Reading

end Reckoner
