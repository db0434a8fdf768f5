import Calculator.Decimal.Arithmetic
/-! Square and cube roots, from the integer root of a mantissa with enough zeros behind it. -/
namespace Calculator.Decimal

/-- Newton's iteration for the `k`-th root of `n`, from above, as long as it goes down. -/
def rootFrom (k n x : Nat) : Nat :=
  let y := ((k - 1) * x + n / Nat.pow x (k - 1)) / k
  if y < x then rootFrom k n y else x
termination_by x

/-- The integer part of the `k`-th root of `n`. -/
def rootFloor (k n : Nat) : Nat :=
  if n = 0 then 0 else rootFrom k n (pow2 (n.log2 / k + 1))

def rootOfPositive (k : Nat) (d : Decimal) (p : Precision) : Decimal :=
  let padding := k * (p.digits + 2) - d.digits
  let shift := padding + ((d.exponent - padding) % k).toNat
  let scaled := d.mantissa.natAbs * pow10 shift
  let root := rootFloor k scaled
  (withSticky root (Nat.pow root k == scaled) ((d.exponent - shift) / k)).roundTo p

/-- The square root, of a number that is not negative. -/
def sqrt? (d : Decimal) (p : Precision) : Option Decimal :=
  if d.isNegative then none
  else if d.isZero then some zero
  else some (d.rootOfPositive 2 p)

/-- The cube root; it has the sign of the number. -/
def cbrt (d : Decimal) (p : Precision) : Decimal :=
  if d.isZero then zero
  else (d.abs.rootOfPositive 3 p).negIf d.isNegative

end Calculator.Decimal
