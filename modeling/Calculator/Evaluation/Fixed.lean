import Calculator.Binary64.Functions
import Calculator.Evaluation
import Calculator.Notation
/-! Evaluation in doubles. -/
namespace Calculator.Evaluation.Fixed

def maxFactorial : Nat := 170

/-- The factorial of a whole number from 0 to 170. -/
def factorial (n : Float) : Except Cause Float :=
  if n < 0 then .error .factorialOfNegative
  else if Binary64.hasFraction n || !n.isFinite then .error .factorialOfFraction
  else if Float.ofNat maxFactorial < n then .error .factorialTooLarge
  else .ok ((List.range' 2 (n.toUInt32.toNat - 1)).foldl (fun product k => product * Float.ofNat k) 1)

def gammaCoefficients : List Float :=
  [676.5203681218851, -1259.1392167224028, 771.3234287776531, -176.6150291621406,
    12.507343278686905, -0.13857109526572012, 9.984369578019572e-6, 1.5056327351493116e-7]

/-- The sum of the coefficients over `x + 1`, `x + 2`, …, behind the leading one. -/
def gammaSeries (x : Float) : Float :=
  gammaCoefficients.zipIdx.foldl (fun sum (c, i) => sum + c / (x + Float.ofNat (i + 1))) 0.9999999999998099

/-- The gamma function of a number that is not below one half. -/
def gammaUpper (x : Float) : Float :=
  let y := x - 1
  let t := y + 7 + 0.5
  (2 * Binary64.pi).sqrt * t.pow (y + 0.5) * (-t).exp * gammaSeries y

/-- The gamma function by approximation, and by reflection below one half. -/
def gammaApproximation (x : Float) : Float :=
  if x < 0.5 then Binary64.pi / ((Binary64.pi * x).sin * gammaUpper (1 - x)) else gammaUpper x

def gamma (x : Float) : Except Cause Float :=
  if x ≤ 0 && !Binary64.hasFraction x then .error .gammaPole else .ok (gammaApproximation x)

/-- The nearest whole number; a half goes up. -/
def round (x : Float) : Float :=
  if 0.5 ≤ x - x.floor then x.floor + 1 else x.floor

/-- The root with the index `n`. A negative number has one unless the index is even. -/
def root (x n : Float) : Except Cause Float :=
  if n == 0 then .error .zerothRoot
  else if x < 0 then
    if Binary64.remainder n 2 == 0 then .error .evenRootOfNegative
    else .ok (-((-x).pow (1 / n)))
  else .ok (x.pow (1 / n))

def combine : BinaryOp → Float → Float → Except Cause Float
  | .add, x, y => .ok (x + y)
  | .sub, x, y => .ok (x - y)
  | .mul, x, y => .ok (x * y)
  | .div, x, y => if y == 0 then .error .divisionByZero else .ok (x / y)
  | .mod, x, y => if y == 0 then .error .moduloByZero else .ok (Binary64.remainder x y)
  | .pow, x, y => .ok (x.pow y)

def toRadians : AngleUnit → Float → Float
  | .degrees, x => x * Binary64.pi / 180
  | .radians, x => x

def ofRadians : AngleUnit → Float → Float
  | .degrees, x => x * 180 / Binary64.pi
  | .radians, x => x

def logarithm (b : Builtin) (log : Float → Float) (x : Float) : Except Cause Float :=
  if x ≤ 0 then .error (.logOfNonPositive b) else .ok (log x)

def apply (angle : AngleUnit) (b : Builtin) (x : Float) : Except Cause Float :=
  match b with
  | .sin => .ok (toRadians angle x).sin
  | .cos => .ok (toRadians angle x).cos
  | .tan => .ok (toRadians angle x).tan
  | .asin => .ok (ofRadians angle x.asin)
  | .acos => .ok (ofRadians angle x.acos)
  | .atan => .ok (ofRadians angle x.atan)
  | .sinh => .ok x.sinh
  | .cosh => .ok x.cosh
  | .tanh => .ok x.tanh
  | .asinh => .ok x.asinh
  | .acosh => .ok x.acosh
  | .atanh => .ok (Binary64.atanh x)
  | .exp => .ok x.exp
  | .ln => logarithm b Float.log x
  | .log | .log10 => logarithm b Float.log10 x
  | .log2 => logarithm b Float.log2 x
  | .sqrt => if x < 0 then .error .sqrtOfNegative else .ok x.sqrt
  | .cbrt => .ok x.cbrt
  | .abs => .ok x.abs
  | .floor => .ok x.floor
  | .ceil => .ok x.ceil
  | .round => .ok (round x)
  | .factorial => factorial x
  | .gamma => gamma x
  | .pow | .root | .min | .max => .error (.arity b 1)

def arithmetic (angle : AngleUnit) : Arithmetic Float where
  number value _ := .ok value
  constant := Constant.toFloat
  fetch x := x
  zero := 0
  neg x := -x
  factorial := factorial
  combine := combine
  power x y := .ok (x.pow y)
  root := root
  apply := apply angle
  least x xs := (x :: xs).foldl Binary64.min Binary64.infinity
  greatest x xs := (x :: xs).foldl Binary64.max (-Binary64.infinity)
  accept := .ok

def evaluate (ctx : Context Float) (e : Expr) : Except Error Float :=
  ctx.evaluateIn (arithmetic ctx.angle) e

/-- The value in doubles of the expression that a text writes. -/
def evaluateText (ctx : Context Float) (text : String) : Except TextError Float :=
  ctx.evaluateTextIn (arithmetic ctx.angle) text

end Calculator.Evaluation.Fixed
