import Calculator.Builtin
import Calculator.Constant
import Calculator.Span
/-! The tokens of an expression's text, with their places. -/
namespace Calculator

/-- The class of a token. -/
inductive Token.Kind
  | number | operator | function | variableName | constant | lparen | rparen | comma
deriving DecidableEq, Repr

/-- A token: its class, its text in canonical spelling, and where it stands. -/
structure Token where
  kind : Token.Kind
  /-- The text; names of built-ins and constants are in lower case. -/
  text : String
  /-- Position of the first character; a product that is not written has the position of its right factor. -/
  position : Nat
  implicit : Bool := false
deriving DecidableEq, Repr

namespace Token

def stop (t : Token) : Nat :=
  if t.implicit then t.position else t.position + t.text.length

def span (t : Token) : Span :=
  ⟨t.position, t.stop⟩

def isOperator (t : Token) (c : Char) : Bool :=
  t.kind == .operator && t.text == String.singleton c

/-- Whether an operand may end here, so that a factor after it is multiplied. -/
def endsOperand (t : Token) : Bool :=
  match t.kind with
  | .number | .rparen | .variableName | .constant => true
  | _ => false

/-- Whether a factor that is multiplied without a sign may start here. -/
def startsFactor (t : Token) : Bool :=
  match t.kind with
  | .lparen | .function | .variableName | .constant => true
  | _ => false

/-- The product sign that is not written, in front of the token at `position`. -/
def unwrittenProduct (position : Nat) : Token :=
  ⟨.operator, "*", position, true⟩

/-- The tokens with a product sign between each operand and the factor right after it. -/
def withProducts : List Token → List Token
  | [] => []
  | [t] => [t]
  | t :: u :: rest =>
    if t.endsOperand && u.startsFactor then
      t :: unwrittenProduct u.position :: withProducts (u :: rest)
    else t :: withProducts (u :: rest)

end Token
end Calculator
