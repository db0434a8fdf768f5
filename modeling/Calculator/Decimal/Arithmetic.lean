import Calculator.Decimal.Rounding
/-!
Arithmetic on decimal numbers of any length. Each operation computes as if exactly and rounds once; powers of
ten are built only as far as the result needs them.
-/
namespace Calculator.Decimal

/-- The sum. An operand that lies wholly below the digit of rounding does not count. -/
def add (a b : Decimal) (p : Precision) : Decimal :=
  if a.isZero then b.roundTo p
  else if b.isZero then a.roundTo p
  else
    let limit : Int := p.digits + 2
    if limit < a.leading - b.leading then a.roundTo p
    else if limit < b.leading - a.leading then b.roundTo p
    else
      let e := Min.min a.exponent b.exponent
      let m := a.mantissa * pow10 (a.exponent - e).toNat + b.mantissa * pow10 (b.exponent - e).toNat
      (ofParts m e).roundTo p

def sub (a b : Decimal) (p : Precision) : Decimal :=
  a.add b.neg p

def mul (a b : Decimal) (p : Precision) : Decimal :=
  (ofParts (a.mantissa * b.mantissa) (a.exponent + b.exponent)).roundTo p

def mul? (a b : Decimal) (p : Precision) : Option Decimal :=
  if a.isZero || b.isZero then some zero else (a.mul b p).checked

/-- The quotient of a division with remainder, as a decimal whose last digit tells whether anything was left. -/
def withSticky (quotient : Nat) (exact : Bool) (exponent : Int) : Decimal :=
  if exact then ofParts quotient exponent else ofParts (quotient * 10 + 1) (exponent - 1)

/-- The quotient, if the divisor is not zero and the quotient is in range. -/
def div? (a b : Decimal) (p : Precision) : Option Decimal :=
  if b.isZero then none
  else if a.isZero then some zero
  else
    let shift := p.digits + 2 + b.digits - a.digits
    let numerator := a.mantissa.natAbs * pow10 shift
    let divisor := b.mantissa.natAbs
    let magnitude := withSticky (numerator / divisor) (numerator % divisor == 0) (a.exponent - b.exponent - shift)
    ((magnitude.negIf (a.isNegative != b.isNegative)).roundTo p).checked

/-- The remainder of `base ^ n` by `m`, by repeated squaring. -/
def powMod (base n m : Nat) : Nat :=
  if n = 0 then 1 % m
  else
    let root := powMod base (n / 2) m
    if n % 2 = 0 then root * root % m else root * root % m * base % m
termination_by n
decreasing_by omega

/-- The remainder of the absolute values as an integer at the smaller exponent. -/
def remainderAbs (a b : Decimal) : Nat :=
  let divisor := b.mantissa.natAbs
  if b.exponent ≤ a.exponent then
    a.mantissa.natAbs % divisor * powMod 10 (a.exponent - b.exponent).toNat divisor % divisor
  else a.mantissa.natAbs % (divisor * pow10 (b.exponent - a.exponent).toNat)

/-- The remainder of a division that is cut toward zero, if the divisor is not zero; it has the dividend's sign. -/
def rem? (a b : Decimal) (p : Precision) : Option Decimal :=
  if b.isZero then none
  else if a.isZero || a.abs.lt b.abs then some (a.roundTo p)
  else
    let r := ofParts (remainderAbs a b) (Min.min a.exponent b.exponent)
    some ((r.negIf a.isNegative).roundTo p)

/-- The greatest whole number that is not above the number. -/
def floor (d : Decimal) : Decimal :=
  if d.isInteger then d
  else if d.leading < 0 then (if d.isNegative then ofInt (-1) else zero)
  else ofParts (d.mantissa.fdiv (pow10 (-d.exponent).toNat)) 0

/-- The least whole number that is not below the number. -/
def ceil (d : Decimal) : Decimal :=
  d.neg.floor.neg

/-- The nearest whole number; a half goes up. -/
def round (d : Decimal) : Decimal :=
  (d.add half ((Precision.ofRequest Precision.maxDigits).guard d.digits)).floor

/-- Digits kept behind those of a result while it is computed. -/
def guardDigits : Nat := 10

/-- The product of `acc` and `base ^ n` by repeated squaring, if no product on the way leaves the range. -/
def powLoop (p : Precision) (base acc : Decimal) (n : Nat) : Option Decimal :=
  if n = 0 then some acc
  else do
    let acc ← if n % 2 = 1 then acc.mul? base p else some acc
    if n / 2 = 0 then return acc
    powLoop p (← base.mul? base p) acc (n / 2)
termination_by n
decreasing_by omega

/-- The power with a whole exponent, if it is defined and nothing leaves the range. -/
def powInt? (base : Decimal) (n : Int) (p : Precision) : Option Decimal :=
  if n = 0 then some one
  else if base.isZero then (if n < 0 then none else some zero)
  else do
    let wp := p.guard (guardDigits + Digits.count n.natAbs)
    let power ← powLoop wp base one n.natAbs
    let power ← if n < 0 then one.div? power wp else some power
    return power.roundTo p

end Calculator.Decimal
