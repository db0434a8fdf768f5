import Calculator.Decimal.Exponential
/-! Hyperbolic functions of decimal numbers and their inverses. -/
namespace Calculator.Decimal

/-- The exponential function and its inverse, if both are in range. -/
def expPair? (x : Decimal) (p : Precision) : Option (Decimal × Decimal) := do
  let e ← x.exp? p
  return (e, ← one.div? e p)

/-- The hyperbolic sine, if it is not too large. Near zero its series avoids cancellation. -/
def sinh? (x : Decimal) (p : Precision) : Option Decimal :=
  let wp := p.guard guardDigits
  if x.abs.lt one then
    some ((((Series.oddFactorials? wp false x).map Series.Ending.sum).getD x).roundTo p)
  else do
    let (e, inverse) ← x.expPair? wp
    let result ← (e.sub inverse wp).div? two wp
    return result.roundTo p

/-- The hyperbolic cosine, if it is not too large. -/
def cosh? (x : Decimal) (p : Precision) : Option Decimal := do
  let wp := p.guard guardDigits
  let (e, inverse) ← x.abs.expPair? wp
  let result ← (e.add inverse wp).div? two wp
  return result.roundTo p

/-- The hyperbolic tangent; where sine and cosine are too large it is one. -/
def tanh (x : Decimal) (p : Precision) : Decimal :=
  let wp := p.guard guardDigits
  let ratio? := do (← x.sinh? wp).div? (← x.cosh? wp) wp
  match ratio? with
  | some ratio => ratio.roundTo p
  | none => one.negIf x.isNegative

/-- The number itself, if it is so small that the second term of an odd series does not affect its digits. -/
def belowCubicTerm? (x : Decimal) (p : Precision) : Option Decimal :=
  if x.leading < -p.digits - 2 then some (x.roundTo p) else none

def smallPrecision (x : Decimal) (p : Precision) : Precision :=
  p.guard (guardDigits + (-x.leading).toNat)

def asinh? (x : Decimal) (p : Precision) : Option Decimal :=
  if x.isZero then some zero
  else
    match x.belowCubicTerm? p with
    | some tiny => some tiny
    | none => do
      let wp := x.smallPrecision p
      let root ← ((x.abs.mul x.abs wp).add one wp).sqrt? wp
      let result ← (x.abs.add root wp).ln? wp
      return (result.negIf x.isNegative).roundTo p

/-- The inverse hyperbolic cosine, of a number that is not below one. -/
def acosh? (x : Decimal) (p : Precision) : Option Decimal :=
  if x.lt one then none
  else do
    let wp := p.guard guardDigits
    let root ← ((x.mul x wp).sub one wp).sqrt? wp
    let result ← (x.add root wp).ln? wp
    return result.roundTo p

/-- The inverse hyperbolic tangent, of a number between -1 and 1. -/
def atanh? (x : Decimal) (p : Precision) : Option Decimal :=
  if !x.abs.lt one then none
  else if x.isZero then some zero
  else
    match x.belowCubicTerm? p with
    | some tiny => some tiny
    | none => do
      let wp := x.smallPrecision p
      let ratio ← (one.add x wp).div? (one.sub x wp) wp
      let result ← ratio.ln? wp
      return (result.mul half wp).roundTo p

end Calculator.Decimal
