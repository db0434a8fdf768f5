/-! The functions that every expression may call, by name. -/
namespace Calculator

/-- A built-in function. -/
inductive Builtin
  | sin | cos | tan | asin | acos | atan
  | sinh | cosh | tanh | asinh | acosh | atanh
  | exp | ln | log | log10 | log2
  | sqrt | cbrt | pow | root
  | abs | floor | ceil | round | min | max | factorial | gamma
deriving DecidableEq, Repr

/-- How many arguments a function takes. -/
inductive Arity
  | exactly (count : Nat)
  | variadic
deriving DecidableEq, Repr

def Arity.admits : Arity → Nat → Bool
  | .exactly n, count => n == count
  | .variadic, count => count != 0

namespace Builtin

/-- Every built-in, in the order of the registry. -/
def all : List Builtin :=
  [sin, cos, tan, asin, acos, atan, sinh, cosh, tanh, asinh, acosh, atanh,
    exp, ln, log, log10, log2, sqrt, cbrt, pow, root,
    abs, floor, ceil, round, min, max, factorial, gamma]

/-- The canonical spelling, in lower case. -/
def name : Builtin → String
  | sin => "sin"
  | cos => "cos"
  | tan => "tan"
  | asin => "asin"
  | acos => "acos"
  | atan => "atan"
  | sinh => "sinh"
  | cosh => "cosh"
  | tanh => "tanh"
  | asinh => "asinh"
  | acosh => "acosh"
  | atanh => "atanh"
  | exp => "exp"
  | ln => "ln"
  | log => "log"
  | log10 => "log10"
  | log2 => "log2"
  | sqrt => "sqrt"
  | cbrt => "cbrt"
  | pow => "pow"
  | root => "root"
  | abs => "abs"
  | floor => "floor"
  | ceil => "ceil"
  | round => "round"
  | min => "min"
  | max => "max"
  | factorial => "factorial"
  | gamma => "gamma"

/-- The built-in of this name; ASCII case does not matter. -/
def ofName? (text : String) : Option Builtin :=
  all.find? fun b => b.name == text.toLower

def arity : Builtin → Arity
  | pow | root => .exactly 2
  | min | max => .variadic
  | _ => .exactly 1

/-- Whether the argument is an angle, read in the angle unit of the evaluation. -/
def readsAngle : Builtin → Bool
  | sin | cos | tan => true
  | _ => false

theorem mem_all (b : Builtin) : b ∈ all := by
  cases b <;> decide

end Builtin
end Calculator
