import Calculator.Decimal.Literal
import Calculator.Decimal.Root
import Calculator.Decimal.Series
/-! The exponential function, logarithms and general powers of decimal numbers. -/
namespace Calculator.Decimal

/-- The number times itself, `n` times over. -/
def squareTimes (p : Precision) : Nat → Decimal → Decimal
  | 0, d => d
  | n + 1, d => squareTimes p n (d.mul d p)

def halveTimes (p : Precision) : Nat → Decimal → Decimal
  | 0, d => d
  | n + 1, d => halveTimes p n (d.mul half p)

/-- Beyond this magnitude the exponential function is out of range. -/
def expLimit : Float := 1e12

/-- How often a magnitude is halved to bring it below a tenth. -/
def halvings (magnitude : Float) : Nat :=
  if 0.1 < magnitude then (magnitude / 0.1).log2.ceil.toUInt32.toNat else 0

/-- The number of digits of a magnitude before its point, less one. -/
def wholeDigits (magnitude : Float) : Nat :=
  let digits := magnitude.log10
  if 0 < digits then digits.toUInt32.toNat else 0

/-- The exponential function, if its value is not too large. The argument is halved, and the sum squared back. -/
def exp? (x : Decimal) (p : Precision) : Option Decimal :=
  if x.isZero then some one
  else
    let magnitude := x.toFloat.abs
    if expLimit < magnitude then (if x.isNegative then some zero else none)
    else do
      let n := halvings magnitude
      let wp := p.guard (guardDigits + n / 3 + 1 + wholeDigits magnitude)
      let ending ← Series.exp? wp (halveTimes wp n x)
      let sum ← ending.settled?
      return (squareTimes wp n sum).roundTo p

def nearOne : Decimal := ofParts 1 (-2)

/-- Square roots that are enough to bring a number from 1 to 10 near one. -/
def maxRoots : Nat := 64

/-- Takes square roots until the number is near one, and counts them. -/
def rootsTowardOne (p : Precision) : Nat → Decimal → Nat → Option (Decimal × Nat)
  | 0, _, _ => none
  | fuel + 1, m, count => do
    if nearOne.lt ((m.sub one p).abs) then rootsTowardOne p fuel (← m.sqrt? p) (count + 1)
    else return (m, count)

/-- The natural logarithm of a number from 1 to 10: roots toward one, then `2 · atanh ((m - 1) / (m + 1))`. -/
def lnNearOne? (m : Decimal) (p : Precision) : Option Decimal := do
  let wp := p.guard 4
  let (m, roots) ← rootsTowardOne wp maxRoots m 0
  let z ← (m.sub one wp).div? (m.add one wp) wp
  let ending ← Series.oddPowers? wp false z
  let sum ← ending.settled?
  return sum.mul (ofInt (pow2 (roots + 1))) wp

def ln? (x : Decimal) (p : Precision) : Option Decimal :=
  if !x.isPositive then none
  else if x = one then some zero
  else do
    let k := x.leading
    let wp := p.guard (guardDigits + 2 + Digits.count k.natAbs)
    let lnMantissa ← lnNearOne? ⟨x.mantissa, x.exponent - k⟩ wp
    let result ←
      if k = 0 then some lnMantissa
      else do
        let ln10 ← lnNearOne? (ofInt 10) wp
        some (lnMantissa.add (ln10.mul (ofInt k) wp) wp)
    return result.roundTo p

/-- The logarithm of a positive number; a result that rounds to a whole number is whole. -/
def logBase? (base x : Decimal) (p : Precision) : Option Decimal := do
  let wp := p.guard guardDigits
  let quotient ← (← x.ln? wp).div? (← base.ln? wp) wp
  let rounded := quotient.roundTo p
  let nearest := rounded.round
  if ((rounded.sub nearest wp).abs).leading < -p.digits then return nearest
  return rounded

/-- The logarithm to base 10 of a positive number. -/
def log10? (x : Decimal) (p : Precision) : Option Decimal := logBase? (ofInt 10) x p

/-- The logarithm to base 2 of a positive number. -/
def log2? (x : Decimal) (p : Precision) : Option Decimal := logBase? two x p

/-- The greatest whole exponent that is raised to by repeated squaring. -/
def maxIntPower : Nat := 1000000

/-- A power with an exponent that is not small and whole, through logarithm and exponential function. -/
def powReal? (base exponent : Decimal) (p : Precision) : Option Decimal :=
  if base.isZero then (if exponent.isNegative then none else some zero)
  else do
    let flip ← if base.isNegative then exponent.isOdd? else some false
    let wp := p.guard (guardDigits + (Min.min exponent.leading 13).toNat)
    let log ← base.abs.ln? wp
    let power ← (exponent.mul log wp).exp? p
    return power.negIf flip

/-- The power, if it is defined and in range. -/
def pow? (base exponent : Decimal) (p : Precision) : Option Decimal :=
  match exponent.toWord? with
  | some n => if n.natAbs ≤ maxIntPower then base.powInt? n p else powReal? base exponent p
  | none => powReal? base exponent p

end Calculator.Decimal
