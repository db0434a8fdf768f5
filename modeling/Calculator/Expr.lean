import Calculator.Constant
import Calculator.Span
/-!
Expressions as trees. Every node knows the characters it was read from; a number keeps its literal besides
its value.
-/
namespace Calculator

/-- A binary operator. -/
inductive BinaryOp
  | add | sub | mul | div | mod | pow
deriving DecidableEq, Repr

namespace BinaryOp

def all : List BinaryOp := [add, sub, mul, div, mod, pow]

def symbol : BinaryOp → Char
  | add => '+'
  | sub => '-'
  | mul => '*'
  | div => '/'
  | mod => '%'
  | pow => '^'

def ofSymbol? (text : String) : Option BinaryOp :=
  all.find? fun op => String.singleton op.symbol == text

def precedence : BinaryOp → Nat
  | add | sub => 1
  | mul | div | mod => 2
  | pow => 3

def groupsRight : BinaryOp → Bool
  | pow => true
  | _ => false

end BinaryOp

/-- A unary operator. The signs stand in front of their operand, and the factorial behind it. -/
inductive UnaryOp
  | plus | minus | factorial
deriving DecidableEq, Repr

namespace UnaryOp

def symbol : UnaryOp → Char
  | plus => '+'
  | minus => '-'
  | factorial => '!'

def standsBehind : UnaryOp → Bool
  | factorial => true
  | _ => false

end UnaryOp

/-- An expression. -/
inductive Expr
  | number (value : Float) (raw : String) (span : Span)
  | constant (c : Constant) (span : Span)
  | free (name : String) (span : Span)
  | unary (op : UnaryOp) (operand : Expr) (span : Span)
  | binary (op : BinaryOp) (left right : Expr) (span : Span)
  | call (name : String) (args : List Expr) (span : Span)
  | matrix (rows : List (List Expr)) (span : Span)
  | complex (re im : Expr) (span : Span)

namespace Expr

def span : Expr → Span
  | number _ _ s | constant _ s | free _ s | unary _ _ s | binary _ _ _ s | call _ _ s | matrix _ s | complex _ _ s => s

def children : Expr → List Expr
  | number .. | constant .. | free .. => []
  | unary _ e _ => [e]
  | binary _ l r _ => [l, r]
  | call _ args _ => args
  | matrix rows _ => rows.flatten
  | complex re im _ => [re, im]

/-- A binary node over all that its operands were read from. -/
def joined (op : BinaryOp) (left right : Expr) : Expr :=
  binary op left right (left.span.hull right.span)

mutual
/-- The number of nodes on the longest way down from the root. -/
def height : Expr → Nat
  | number .. | constant .. | free .. => 1
  | unary _ e _ => e.height + 1
  | binary _ l r _ => max l.height r.height + 1
  | call _ args _ => heightList args + 1
  | matrix rows _ => heightRows rows + 1
  | complex re im _ => max re.height im.height + 1
def heightList : List Expr → Nat
  | [] => 0
  | e :: es => max e.height (heightList es)
def heightRows : List (List Expr) → Nat
  | [] => 0
  | row :: rows => max (heightList row) (heightRows rows)
end

end Expr
end Calculator
