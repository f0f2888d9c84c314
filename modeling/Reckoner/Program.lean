import Reckoner.Statement.Reading
import Reckoner.Token.Lexicon

/-! Programs: what a text says when it is read as a list of statements, and
expressions as texts of their own. -/
namespace Reckoner

abbrev Program := List Statement

namespace Program

/-- Reads tokens as a program. There has to be a statement. -/
def ofTokens (ts : List Token) : Except Failure Program :=
  let ts := Reading.skipSemicolons ts
  if (Reading.peek ts).isFinish then Reading.reject .emptyInput (Reading.peek ts)
  else Reading.statements (Reading.budget ts) ts

def ofText (text : String) : Except Failure Program := ofTokens (tokenize text)

end Program

/-- Reads a text that is one expression and nothing else. -/
def Expr.ofText (text : String) : Except Failure Expr := Expr.ofTokens (tokenize text)

end Reckoner
