import Calculator.Decimal
/-! Rounding decimal numbers to a number of significant digits; a half goes away from zero. -/
namespace Calculator

/-- A number of significant digits that results are rounded to. It is a natural number, as are the shifts that depend on
it: up to 10 ^ 9 digits, all of them fit in words of 32 bits, guard digits included. -/
structure Precision where
  digits : Nat
  /-- There is at least one. -/
  digits_pos : 0 < digits
deriving DecidableEq, Repr

namespace Precision

def maxDigits : Nat := 1000

/-- The precision that is nearest to what is asked for, from 1 to `maxDigits`. -/
def ofRequest (digits : Nat) : Precision :=
  ⟨max 1 (min digits maxDigits), Nat.lt_of_lt_of_le Nat.zero_lt_one (Nat.le_max_left ..)⟩

/-- The precision with more digits, however many these are. -/
def guard (p : Precision) (extra : Nat) : Precision :=
  ⟨p.digits + extra, Nat.add_pos_left p.digits_pos extra⟩

end Precision

namespace Decimal

/-- The natural number `n / unit` to the nearest integer; a half goes up. -/
def nearestUp (n unit : Nat) : Nat :=
  if unit ≤ 2 * (n % unit) then n / unit + 1 else n / unit

def roundTo (d : Decimal) (p : Precision) : Decimal :=
  if d.digits ≤ p.digits then d
  else
    let excess := d.digits - p.digits
    let q : Int := nearestUp d.mantissa.natAbs (pow10 excess)
    ofParts (if d.isNegative then -q else q) (d.exponent + excess)

end Decimal
end Calculator
