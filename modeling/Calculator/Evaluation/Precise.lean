import Calculator.Decimal.Hyperbolic
import Calculator.Decimal.Trigonometric
import Calculator.Evaluation.Fixed
/-! Evaluation in decimal numbers, each node of which is rounded to the precision that is asked for. -/
namespace Calculator.Evaluation.Precise

def orElse (cause : Cause) : Option Decimal → Except Cause Decimal
  | some d => .ok d
  | none => .error cause

/-- The value of a literal. A malformed one falls back on its double. -/
def number (p : Precision) (value : Float) (raw : String) : Except Cause Decimal :=
  match Decimal.parse raw with
  | .ok d => .ok (d.roundTo p)
  | .error (.outOfRange _) => .error (.numberOutOfRange raw)
  | .error (.invalid _) => orElse (.invalidNumber raw) ((Decimal.ofFloat? value).map (·.roundTo p))

def constant (p : Precision) : Constant → Decimal
  | .pi => Decimal.pi p
  | .tau => (Decimal.pi (p.guard 2)).mul Decimal.two p
  | .e => (Decimal.one.exp? p).getD Decimal.one
  | .phi =>
    let wp := p.guard 5
    let root := ((Decimal.ofInt 5).sqrt? wp).getD Decimal.zero
    let twice := Decimal.one.add root wp
    (twice.div? Decimal.two p).getD twice

def power (p : Precision) (base exponent : Decimal) : Except Cause Decimal :=
  match base.pow? exponent p with
  | some d => .ok d
  | none =>
    if base.isZero && exponent.isNegative then .error .zeroToNegative
    else if base.isNegative && !exponent.isInteger then .error .fractionalPower
    else .error .powerTooLarge

def combine (p : Precision) (op : BinaryOp) (x y : Decimal) : Except Cause Decimal :=
  match op with
  | .add => .ok (x.add y p)
  | .sub => .ok (x.sub y p)
  | .mul => orElse .resultTooLarge (x.mul? y p)
  | .div => if y.isZero then .error .divisionByZero else orElse .resultTooLarge (x.div? y p)
  | .mod => orElse .moduloByZero (x.rem? y p)
  | .pow => power p x y

/-- The factorial of a whole number from 0 to 170. -/
def factorial (p : Precision) (n : Decimal) : Except Cause Decimal :=
  if n.isNegative then .error .factorialOfNegative
  else if !n.isInteger then .error .factorialOfFraction
  else
    match n.toWord? with
    | none => .error .factorialTooLarge
    | some k =>
      if Fixed.maxFactorial < k.toNat then .error .factorialTooLarge
      else
        let product : Nat := (List.range' 2 (k.toNat - 1)).foldl (· * ·) 1
        .ok ((Decimal.ofInt product).roundTo p)

/-- The gamma function, through doubles. -/
def gamma (p : Precision) (x : Decimal) : Except Cause Decimal := do
  let value ← Fixed.gamma x.toFloat
  orElse .resultTooLarge ((Decimal.ofFloat? value).map (·.roundTo p))

/-- The root of a number that is not negative. Its index is not zero. -/
def rootOfNonNegative (p : Precision) (x n : Decimal) : Except Cause Decimal :=
  match n.toWord? with
  | some 2 => orElse .sqrtOfNegative (x.sqrt? p)
  | some 3 => .ok (x.cbrt p)
  | _ => do
    let inverse ← orElse .resultTooLarge (Decimal.one.div? n (p.guard 10))
    power p x inverse

/-- The root with the index `n`. A negative number has one unless the index is even. -/
def root (p : Precision) (x n : Decimal) : Except Cause Decimal :=
  if n.isZero then .error .zerothRoot
  else if x.isNegative then
    if n.isOdd? = some false then .error .evenRootOfNegative
    else do
      let r ← rootOfNonNegative p x.abs n
      return r.neg
  else rootOfNonNegative p x n

def toRadians (angle : AngleUnit) (p : Precision) (x : Decimal) : Decimal :=
  match angle with
  | .degrees => x.mul (((Decimal.pi p).div? (Decimal.ofInt 180) p).getD Decimal.zero) p
  | .radians => x

def ofRadians (angle : AngleUnit) (p : Precision) (x : Decimal) : Decimal :=
  match angle with
  | .degrees => ((x.mul (Decimal.ofInt 180) p).div? (Decimal.pi p) p).getD Decimal.zero
  | .radians => x

def tangent (p : Precision) (x : Decimal) : Except Cause Decimal :=
  match x.tan? p with
  | some d => .ok d
  | none => if (x.sin? p).isNone then .error (.angleTooLarge .tan) else .error .tangentPole

def apply (angle : AngleUnit) (p : Precision) (b : Builtin) (x : Decimal) : Except Cause Decimal :=
  let wp := p.guard 10
  let inverse (radians : Option Decimal) : Except Cause Decimal :=
    orElse (.argumentOutOfRange b) (radians.map fun r => (ofRadians angle wp r).roundTo p)
  match b with
  | .sin => orElse (.angleTooLarge b) ((toRadians angle wp x).sin? p)
  | .cos => orElse (.angleTooLarge b) ((toRadians angle wp x).cos? p)
  | .tan => tangent p (toRadians angle wp x)
  | .asin => inverse (x.asin? wp)
  | .acos => inverse (x.acos? wp)
  | .atan => inverse (some (x.atan wp))
  | .sinh => orElse .resultTooLarge (x.sinh? p)
  | .cosh => orElse .resultTooLarge (x.cosh? p)
  | .tanh => .ok (x.tanh p)
  | .asinh => orElse (.argumentOutOfRange b) (x.asinh? p)
  | .acosh => orElse .acoshBelowOne (x.acosh? p)
  | .atanh => orElse .atanhFromOne (x.atanh? p)
  | .exp => orElse .resultTooLarge (x.exp? p)
  | .ln => orElse (.logOfNonPositive b) (x.ln? p)
  | .log | .log10 => orElse (.logOfNonPositive b) (x.log10? p)
  | .log2 => orElse (.logOfNonPositive b) (x.log2? p)
  | .sqrt => orElse .sqrtOfNegative (x.sqrt? p)
  | .cbrt => .ok (x.cbrt p)
  | .abs => .ok x.abs
  | .floor => .ok x.floor
  | .ceil => .ok x.ceil
  | .round => .ok x.round
  | .factorial => factorial p x
  | .gamma => gamma p x
  | .pow | .root | .min | .max => .error (.arity b 1)

/-- The arithmetic of decimal numbers. A node's value stays in the exponent range. -/
def arithmetic (angle : AngleUnit) (p : Precision) : Arithmetic Decimal where
  number := number p
  constant := constant p
  fetch x := x.roundTo p
  zero := Decimal.zero
  neg := Decimal.neg
  factorial := factorial p
  combine := combine p
  power := power p
  root := root p
  apply := apply angle p
  least x xs := xs.foldl Decimal.min x
  greatest x xs := xs.foldl Decimal.max x
  accept x := orElse .resultTooLarge x.checked

theorem number_arithmetic (angle : AngleUnit) (p : Precision) : (arithmetic angle p).number = number p := by
  rw [arithmetic]

def arithmeticOf (ctx : Context Decimal) : Arithmetic Decimal :=
  arithmetic ctx.angle (.ofRequest ctx.precision)

def evaluate (ctx : Context Decimal) (e : Expr) : Except Error Decimal :=
  ctx.evaluateIn (arithmeticOf ctx) e

/-- The value in decimal numbers of the expression that a text writes. -/
def evaluateText (ctx : Context Decimal) (text : String) : Except TextError Decimal :=
  ctx.evaluateTextIn (arithmeticOf ctx) text

/-- The context in which the variable has the shortest decimal value of the double, if that is finite. -/
def setFloat (ctx : Context Decimal) (name : String) (value : Float) : Context Decimal :=
  match Decimal.ofFloat? value with
  | some d => ctx.setVariable name d
  | none => ctx

end Calculator.Evaluation.Precise
