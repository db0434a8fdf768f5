import Calculator.Decimal.Root
import Calculator.Decimal.Series
/-! Trigonometric functions of decimal numbers, in radians, and their inverses. -/
namespace Calculator.Decimal

/-- Adds `∓ power / n² / (2 k + 1) ± …` to a sum of whole numbers, until a term vanishes. -/
def arctanInverseLoop (square : Nat) (h : 1 < square) (power k : Nat) (sum : Int) : Int :=
  let next := power / square
  let term := next / (2 * k + 1)
  if term = 0 then sum
  else arctanInverseLoop square h next (k + 1) (if k % 2 = 1 then sum - term else sum + term)
termination_by power
decreasing_by
  have hterm : ¬ power / square / (2 * k + 1) = 0 := by assumption
  have hpower : 0 < power := Nat.pos_of_ne_zero fun h0 => hterm (by simp [h0])
  exact Nat.div_lt_self hpower h

/-- The arctangent of `1 / n`, in units of `1 / scale`. -/
def arctanInverse (n : Nat) (h : 1 < n * n) (scale : Nat) : Int :=
  arctanInverseLoop (n * n) h (scale / n) 1 (scale / n : Nat)

/-- The number π, by `16 · atan (1 / 5) - 4 · atan (1 / 239)` in whole numbers. The places that are kept are not counted
in a word. -/
def pi (p : Precision) : Decimal :=
  let places := p.digits + guardDigits
  let scale := pow10 places
  let units := arctanInverse 5 (by decide) scale * 16 - arctanInverse 239 (by decide) scale * 4
  (ofParts units (-places)).roundTo p

/-- The angle less a number of whole turns, brought between -π and π. -/
def reduceAngle (x : Decimal) (p : Precision) : Decimal :=
  let turn := (pi p).mul two p
  match x.div? turn p with
  | none => x
  | some quotient =>
    let turns := quotient.round
    if turns.isZero then x else x.sub (turns.mul turn p) p

/-- The precision in which an angle is reduced, if it has not too many digits before its point. -/
def anglePrecision? (x : Decimal) (p : Precision) : Option Precision :=
  let whole := x.leading.toNat
  if Precision.maxDigits < whole then none else some (p.guard (guardDigits + whole))

def sinReduced (r : Decimal) (p : Precision) : Decimal :=
  ((Series.oddFactorials? p true r).map Series.Ending.sum).getD r

def cosReduced (r : Decimal) (p : Precision) : Decimal :=
  ((Series.evenFactorials? p r).map Series.Ending.sum).getD one

/-- The sine, of an angle that is not too large. -/
def sin? (x : Decimal) (p : Precision) : Option Decimal := do
  let wp ← x.anglePrecision? p
  return (sinReduced (x.reduceAngle wp) wp).roundTo p

/-- The cosine, of an angle that is not too large. -/
def cos? (x : Decimal) (p : Precision) : Option Decimal := do
  let wp ← x.anglePrecision? p
  return (cosReduced (x.reduceAngle wp) wp).roundTo p

/-- The tangent, of an angle that is not too large and whose cosine is not zero. -/
def tan? (x : Decimal) (p : Precision) : Option Decimal := do
  let wp ← x.anglePrecision? p
  let r := x.reduceAngle wp
  let quotient ← (sinReduced r wp).div? (cosReduced r wp) wp
  return quotient.roundTo p

def quarterTurn (p : Precision) : Decimal := (pi p).mul half p

/-- Halves the angle with this tangent, `n` times, by `x / (1 + √(1 + x²))`. -/
def halveArctan (p : Precision) : Nat → Decimal → Decimal
  | 0, x => x
  | n + 1, x =>
    match (one.add (x.mul x p) p).sqrt? p with
    | none => x
    | some hypotenuse =>
      match x.div? (one.add hypotenuse p) p with
      | none => x
      | some y => halveArctan p n y

/-- The arctangent of a number from -1 to 1: eight times that of an angle halved three times. -/
def atanWithinOne (x : Decimal) (p : Precision) : Decimal :=
  if x.isZero then zero
  else
    let wp := p.guard guardDigits
    let y := halveArctan wp 3 x
    let sum := ((Series.oddPowers? wp true y).map Series.Ending.sum).getD y
    (sum.mul (ofInt 8) wp).roundTo p

/-- The arctangent. Beyond one it is a quarter turn less the arctangent of the inverse. -/
def atan (x : Decimal) (p : Precision) : Decimal :=
  if one.lt x.abs then
    let wp := p.guard guardDigits
    match one.div? x wp with
    | none => zero
    | some inverse =>
      let quarter := (quarterTurn wp).negIf x.isNegative
      (quarter.sub (inverse.atanWithinOne wp) wp).roundTo p
  else x.atanWithinOne p

/-- The arcsine, of a number from -1 to 1. -/
def asin? (x : Decimal) (p : Precision) : Option Decimal :=
  let wp := p.guard guardDigits
  match x.abs.compare one with
  | .gt => none
  | .eq => some (((quarterTurn wp).negIf x.isNegative).roundTo p)
  | .lt => do
    let cosine ← (one.sub (x.mul x wp) wp).sqrt? wp
    let tangent ← x.div? cosine wp
    return tangent.atan p

/-- The arccosine, of a number from -1 to 1. -/
def acos? (x : Decimal) (p : Precision) : Option Decimal := do
  let wp := p.guard guardDigits
  return ((quarterTurn wp).sub (← x.asin? wp) wp).roundTo p

end Calculator.Decimal
