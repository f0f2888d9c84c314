import Reckoner.Number.Format
import Reckoner.Number.Basic
import Reckoner.Number.Single
import Reckoner.Number.Decimal
import Reckoner.Number.Text
import Reckoner.Number.Literal
import Reckoner.Operator
import Reckoner.Token
import Reckoner.Token.Pattern
import Reckoner.Token.Lexicon
import Reckoner.Error
import Reckoner.Expr
import Reckoner.Statement
import Reckoner.Expr.Reading
import Reckoner.Statement.Reading
import Reckoner.Program
import Reckoner.Constant
import Reckoner.Table
import Reckoner.Run
import Reckoner.Arithmetic
import Reckoner.Builtin
import Reckoner.Expr.Evaluation
import Reckoner.Statement.Execution
import Reckoner.Interpreter
import Reckoner.Text.Blank
import Reckoner.Text.Lines
import Reckoner.Text.Digits
import Reckoner.Text.Hidden
import Reckoner.Text.Quoted
import Reckoner.Report.Excerpt
import Reckoner.Report
import Reckoner.Session
import Reckoner.CommandLine.Help
import Reckoner.CommandLine.Arguments
import Reckoner.CommandLine
import Reckoner.Random
import Reckoner.Main
import Reckoner.Proofs.Contract
import Reckoner.Proofs.CopyBack
import Reckoner.Proofs.Effect
import Reckoner.Proofs.Reachable
import Reckoner.Proofs.Atomicity
import Reckoner.Proofs.Constancy
import Reckoner.Proofs.ScopeDiscipline
import Reckoner.Proofs.Stops
import Reckoner.Proofs.Following
import Reckoner.Proofs.Trace
import Reckoner.Proofs.Recording
import Reckoner.Proofs.StepLimit
import Reckoner.Proofs.Placement
import Reckoner.Proofs.Halting
import Reckoner.Proofs.FirstEnd
import Reckoner.Proofs.Grammar
import Reckoner.Proofs.Grouping
import Reckoner.Proofs.Precedence
import Reckoner.Proofs.Printing
import Reckoner.Proofs.RoundTrip
import Reckoner.Proofs.Representable
import Reckoner.Proofs.Singles
import Reckoner.Proofs.Representation
import Reckoner.Proofs.Containers
import Reckoner.Proofs.Merging
import Reckoner.Proofs.Transparency
import Reckoner.Proofs.Progress
import Reckoner.Proofs.Regime
import Reckoner.Proofs.Taxonomy
import Reckoner.Proofs.Coupling
import Reckoner.Proofs.Vocabulary
import Reckoner.Proofs.Locality
import Reckoner.Proofs.Parameters
import Reckoner.Proofs.Joining
import Reckoner.Proofs.Lookahead
import Reckoner.Proofs.ExpressionLookahead
import Reckoner.Proofs.StatementLookahead
import Reckoner.Proofs.ErrorLocation
import Reckoner.Proofs.Scanning
import Reckoner.Proofs.EntryPoints
import Reckoner.Proofs.Unwinding
import Reckoner.Proofs.Metered
import Reckoner.Proofs.Termination
import Reckoner.Proofs.Spelling
import Reckoner.Proofs.Numeric
import Reckoner.Proofs.LongestMatch
import Reckoner.Proofs.LeastPower
import Reckoner.Proofs.Offsets
import Reckoner.Proofs.Spacing
import Reckoner.Proofs.Readability
import Reckoner.Proofs.AugmentedAssignment
import Reckoner.Proofs.Interludes
import Reckoner.Proofs.Pointwise
import Reckoner.Proofs.Retokenizing
import Reckoner.Proofs.Decimals
import Reckoner.Proofs.Numerals
import Reckoner.Proofs.ReadBack
import Reckoner.Proofs.Nearest
import Reckoner.Proofs.CorrectRounding
import Reckoner.Proofs.Bounds
import Reckoner.Proofs.Literals
import Reckoner.Proofs.Reports
import Reckoner.Proofs.Sessions
