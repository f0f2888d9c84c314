import Reckoner.Error
import Reckoner.Expr
import Reckoner.Number.Literal

/-! Reading expressions from tokens. An operand comes first; then, as long as the
next token joins another operand to what was read and binds tightly enough, the
expression goes on. Tokens are consumed from the front, and the token that marks
the end is never consumed. -/
namespace Reckoner

namespace Reading

/-- The next token. Beyond the last one there is only the end. -/
def peek : List Token → Token
  | [] => Token.finish 0
  | t :: _ => t

/-- A bound on how deeply the readers of these tokens can call one another. -/
def budget (ts : List Token) : Nat := 4 * ts.length + 4

/-- Fails at the given token. -/
def reject {α : Type} (cause : ParseError.Cause) (token : Token) : Except Failure α :=
  .error (.parse cause token)

/-- Takes the operator token that has to come next. -/
def expectOperator (text : String) (ts : List Token) : Except Failure (List Token) :=
  if (peek ts).isOperator text then .ok ts.tail
  else reject (.expectedToken ("'" ++ text ++ "'")) (peek ts)

/-- Takes the name that has to come next. -/
def expectName (ts : List Token) : Except Failure (String × List Token) :=
  if (peek ts).kind = .name then .ok ((peek ts).text, ts.tail)
  else reject .expectedIdentifier (peek ts)

/-- Takes the closing parenthesis that has to come next. -/
def closeParenthesis (ts : List Token) : Except Failure (List Token) :=
  if (peek ts).isOperator ")" then .ok ts.tail
  else reject .unmatchedParenthesis (peek ts)

/-- How a token joins a right operand to the expression on its left. -/
structure Joint where
  binding : Binding
  combine : Expr → Expr → Expr

/-- The joint that a token makes, if it makes one. An assignment that computes
binds like a plain one, admits anything on its right, and stands for the plain
assignment of the computed value. -/
def joint? (t : Token) : Option Joint :=
  match t.kind with
  | .operator => do
    let op ← Operator.ofGlyph? t.text
    let binding ← op.infixBinding?
    some ⟨binding, .binary op⟩
  | .augmented => do
    let op ← Operator.ofAugmented? t.text
    let binding ← Operator.assign.infixBinding?
    some ⟨{ binding with right := 0 }, fun a b => .binary .assign a (.binary op a b)⟩
  | _ => none

/-- The operator that a token puts before an operand, and its power. -/
def prefixed? (t : Token) : Option (Operator × Rat) := do
  let op ← Operator.ofGlyph? t.text
  let power ← op.prefixPower?
  some (op, power)

/-- Whether a token can begin the second operand of a root written before its
degree and radicand. -/
def startsOperand (t : Token) : Bool :=
  t.kind == .number || t.kind == .name || t.isOperator "(" || t.isOperator "√"

/-- The number that a token spells. -/
def literal (t : Token) : Except Failure Expr :=
  match Literal.value? t.text with
  | some value => .ok (.number value t.text)
  | none => reject .invalidNumber t

mutual

/-- An expression in a context that admits no power below `least`. -/
def expression : Nat → Rat → List Token → Except Failure (Expr × List Token)
  | 0, _, _ => .error .tooDeep
  | fuel + 1, least, ts => do
    let (left, ts) ← operand fuel ts
    extend fuel least left ts

/-- Goes on with an expression for as long as the tokens join more to it. -/
def extend : Nat → Rat → Expr → List Token → Except Failure (Expr × List Token)
  | 0, _, _, _ => .error .tooDeep
  | fuel + 1, least, left, ts =>
    match joint? (peek ts) with
    | some joint =>
      if joint.binding.admits least then do
        let (right, ts) ← expression fuel joint.binding.right ts.tail
        extend fuel least (joint.combine left right) ts
      else .ok (left, ts)
    | none => .ok (left, ts)

/-- A number, a name, a call, a parenthesised expression, or an operator before
its operand. A root may take two. -/
def operand : Nat → List Token → Except Failure (Expr × List Token)
  | 0, _ => .error .tooDeep
  | fuel + 1, ts =>
    let t := peek ts
    match t.kind with
    | .number => do
      let e ← literal t
      .ok (e, ts.tail)
    | .name =>
      if (peek ts.tail).isOperator "(" then do
        let (args, ts) ← arguments fuel ts.tail.tail
        .ok (.call t.text args, ts)
      else .ok (.name t.text, ts.tail)
    | .operator =>
      if t.isOperator "(" then do
        let (inner, ts) ← expression fuel 0 ts.tail
        let ts ← closeParenthesis ts
        .ok (inner, ts)
      else match prefixed? t with
        | some (op, power) => do
          let (first, ts) ← expression fuel power ts.tail
          if op = .root ∧ startsOperand (peek ts) then do
            let (second, ts) ← expression fuel power ts
            .ok (.binary op first second, ts)
          else .ok (.unary op first, ts)
        | none => reject (.unexpectedToken none) t
    | _ => reject (.unexpectedToken none) t

/-- The arguments of a call, from after the opening parenthesis to after the
closing one. -/
def arguments : Nat → List Token → Except Failure (List Expr × List Token)
  | 0, _ => .error .tooDeep
  | fuel + 1, ts =>
    if (peek ts).isOperator ")" then .ok ([], ts.tail)
    else do
      let (args, ts) ← sequence fuel ts
      let ts ← closeParenthesis ts
      .ok (args, ts)

/-- One or more expressions with commas between them. -/
def sequence : Nat → List Token → Except Failure (List Expr × List Token)
  | 0, _ => .error .tooDeep
  | fuel + 1, ts => do
    let (first, ts) ← expression fuel 0 ts
    if (peek ts).isOperator "," then do
      let (rest, ts) ← sequence fuel ts.tail
      .ok (first :: rest, ts)
    else .ok ([first], ts)

end

end Reading

namespace Expr

/-- Reads an expression from the front of the tokens, in a context that admits
no power below `least`. -/
def read (least : Rat) (ts : List Token) : Except Failure (Expr × List Token) :=
  Reading.expression (Reading.budget ts) least ts

/-- Reads an expression from the front of a whole text. Unlike in the middle of
a text, it is an error of its own if there is nothing there. -/
def readFirst (least : Rat) (ts : List Token) : Except Failure (Expr × List Token) :=
  if (Reading.peek ts).isFinish then Reading.reject .emptyInput (Reading.peek ts)
  else read least ts

/-- Reads tokens that are one expression and nothing else. -/
def ofTokens (ts : List Token) : Except Failure Expr := do
  let (e, rest) ← readFirst 0 ts
  if (Reading.peek rest).isFinish then .ok e
  else Reading.reject (.unexpectedToken none) (Reading.peek rest)

end Expr

end Reckoner
