import Calculator.AngleUnit
import Calculator.Batch
import Calculator.Binary64.Basic
import Calculator.Binary64.Functions
import Calculator.Binary64.Literal
import Calculator.Binary64.Rounding
import Calculator.Binary64.Shortest
import Calculator.Bindings
import Calculator.Builtin
import Calculator.Client
import Calculator.Client.Reply
import Calculator.Client.Session
import Calculator.Constant
import Calculator.Decimal
import Calculator.Decimal.Arithmetic
import Calculator.Decimal.Exponential
import Calculator.Decimal.Hyperbolic
import Calculator.Decimal.Literal
import Calculator.Decimal.Machine
import Calculator.Decimal.Root
import Calculator.Decimal.Rounding
import Calculator.Decimal.Series
import Calculator.Decimal.Trigonometric
import Calculator.DenseMatrix
import Calculator.DenseMatrix.Elimination
import Calculator.DenseMatrix.InPlace
import Calculator.DenseMatrix.Request
import Calculator.Digits
import Calculator.Evaluation
import Calculator.Evaluation.Error
import Calculator.Evaluation.Fixed
import Calculator.Evaluation.Precise
import Calculator.Evaluation.Request
import Calculator.Expr
import Calculator.Expr.Arena
import Calculator.Expr.Arena.Equivalent
import Calculator.Expr.Arena.Reader
import Calculator.Expr.Equivalent
import Calculator.Expr.Parser
import Calculator.Expr.Printer
import Calculator.Graph
import Calculator.Json
import Calculator.Json.Printer
import Calculator.Json.Reader
import Calculator.Message
import Calculator.Notation
import Calculator.Power
import Calculator.Span
import Calculator.Text.Blank
import Calculator.Token
import Calculator.Token.Lexer
import Calculator.Validation
import Calculator.Version
import Calculator.Wire
import Calculator.Wire.Batch
import Calculator.Wire.Evaluation
import Calculator.Wire.Graph
import Calculator.Wire.Matrix
import Calculator.Wire.Message
import Calculator.Wire.Token
import Calculator.Worker
import Calculator.Proofs.Grammar
import Calculator.Proofs.Grammar.Outcome
import Calculator.Proofs.Grammar.Soundness
import Calculator.Proofs.Grammar.Completeness
import Calculator.Proofs.Grammar.Correctness
import Calculator.Proofs.Token.Numeral
import Calculator.Proofs.Token.Words
import Calculator.Proofs.Printing.Unplaced
import Calculator.Proofs.Printing.Derivation
import Calculator.Proofs.Printing.RoundTrip
import Calculator.Client.Run
import Calculator.Proofs.Client.Ownership
import Calculator.Proofs.Client.Callbacks
import Calculator.Proofs.Client.Invariant
import Calculator.Proofs.Client.Routing
import Calculator.Proofs.Client.Stranding
import Calculator.Proofs.Client.Session
import Calculator.Proofs.Decimal.Digits
import Calculator.Proofs.Decimal.Value
import Calculator.Proofs.Decimal.Rounding
import Calculator.Proofs.Decimal.Arithmetic
import Calculator.Proofs.Decimal.Integral
import Calculator.Proofs.Decimal.Functions
import Calculator.Proofs.Evaluation.Nodes
import Calculator.Proofs.Evaluation.Precise
import Calculator.Proofs.Evaluation.RoundedOnce
import Calculator.Proofs.Token.Parentheses
import Calculator.Proofs.Validation
import Calculator.Proofs.Bindings
import Calculator.Proofs.Wire.Values
import Calculator.Proofs.Wire.Evaluation
import Calculator.Proofs.Client.Replies
import Calculator.Proofs.Worker
import Calculator.Proofs.Client.Serving
import Calculator.Proofs.Client.Offloading
import Calculator.Proofs.Wire.Matrix
import Calculator.Proofs.Wire.Graph
import Calculator.Proofs.Wire.Message
import Calculator.Proofs.Wire.RoundTrip
import Calculator.Proofs.DenseMatrix.Shape
import Calculator.Proofs.Graph.Sweep
import Calculator.Proofs.Graph
import Calculator.Proofs.Client.Computed
import Calculator.Proofs.Worker.Responses
import Calculator.Proofs.Client.Isolation
import Calculator.Proofs.Client.Renewal
import Calculator.Proofs.Evaluation.Agreement
import Calculator.Proofs.Printing.Parentheses
import Calculator.Proofs.Token.Places
import Calculator.Proofs.Grammar.Spans
import Calculator.Proofs.Notation
import Calculator.Proofs.Binary64.Literal
import Calculator.Proofs.Decimal.Literal
import Calculator.Proofs.Evaluation.Printed
import Calculator.Proofs.Evaluation.Calls
import Calculator.Proofs.Evaluation.Rules
import Calculator.Proofs.Evaluation.Recursion
import Calculator.Proofs.Evaluation.Visibility
import Calculator.Proofs.Evaluation.Location
import Calculator.Proofs.Decimal.Obtainable
import Calculator.Proofs.Evaluation.FirstFailure
import Calculator.Proofs.Token.Coverage
import Calculator.Proofs.Token.Respelling
import Calculator.Proofs.Grammar.Readable
import Calculator.Proofs.Evaluation.Literals
import Calculator.Proofs.Validation.Pairing
import Calculator.Proofs.Decimal.Nearest
import Calculator.Proofs.Decimal.Sums
import Calculator.Proofs.Decimal.Quotients
import Calculator.Proofs.Decimal.Roots
import Calculator.Proofs.Decimal.Closeness
import Calculator.Proofs.Decimal.LogSeries
import Calculator.Proofs.Decimal.LogNearOne
import Calculator.Proofs.Decimal.Logarithm
import Calculator.Proofs.Decimal.LogBase
import Calculator.Proofs.Decimal.WholeLogarithms
import Calculator.Proofs.Decimal.Powers
import Calculator.Proofs.Decimal.Acceptance
import Calculator.Proofs.Decimal.ArctanSeries
import Calculator.Proofs.Decimal.Arctangent
import Calculator.Proofs.Decimal.Pi
import Calculator.Proofs.Binary64.Order
import Calculator.Proofs.Decimal.ExpSeries
import Calculator.Proofs.Decimal.RootExponent
import Calculator.Proofs.Evaluation.NthRoot
import Calculator.Proofs.Graph.Sampling
import Calculator.Proofs.Worker.Loop
import Calculator.Proofs.Decimal.Summation
import Calculator.Proofs.Decimal.FactorialSeries
import Calculator.Proofs.Decimal.Angle
import Calculator.Proofs.Decimal.Arcosh
import Calculator.Proofs.Decimal.ArctanError
import Calculator.Proofs.Decimal.Arccosine
import Calculator.Proofs.Client.Looks
import Calculator.Proofs.DenseMatrix.Elimination
import Calculator.Proofs.DenseMatrix.Table
import Calculator.Proofs.DenseMatrix.InPlace
import Calculator.Proofs.DenseMatrix.Exact
import Calculator.Proofs.Decimal.RoundTo
import Calculator.Proofs.Decimal.Machine
import Calculator.Proofs.Binary64.Distance
import Calculator.Proofs.Arena.Store
import Calculator.Proofs.Arena.Equality
import Calculator.Proofs.Arena.Layout
import Calculator.Proofs.Arena.Reading
import Calculator.Proofs.Decimal.Endings
import Calculator.Proofs.Decimal.Unbounded
