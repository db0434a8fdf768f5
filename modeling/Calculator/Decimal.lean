import Calculator.Digits
/-!
Decimal numbers of any length: `mantissa · 10 ^ exponent`. In normal form the mantissa does not end in zero,
and zero has exponent 0, so that equal numbers have equal parts.
-/
namespace Calculator

/-- A decimal number. -/
structure Decimal where
  mantissa : Int
  /-- The power of ten of the last digit. -/
  exponent : Int
deriving DecidableEq, Repr

namespace Decimal

/-- The greatest power of ten that a first digit may have, in either direction. -/
def maxExponent : Int := 1000000000000000

def zero : Decimal := ⟨0, 0⟩

/-- The number of zeros at the end of a positive number. -/
def trailingZeros (n : Nat) : Nat :=
  if 0 < n ∧ n % 10 = 0 then trailingZeros (n / 10) + 1 else 0
termination_by n
decreasing_by omega

/-- The number `mantissa · 10 ^ exponent` in normal form. -/
def ofParts (mantissa exponent : Int) : Decimal :=
  if mantissa = 0 then zero
  else
    let dropped := trailingZeros mantissa.natAbs
    ⟨mantissa / pow10 dropped, exponent + dropped⟩

def ofInt (n : Int) : Decimal := ofParts n 0

def one : Decimal := ofInt 1

def two : Decimal := ofInt 2

def half : Decimal := ofParts 5 (-1)

def isZero (d : Decimal) : Bool := d.mantissa == 0

def isNegative (d : Decimal) : Bool := decide (d.mantissa < 0)

def isPositive (d : Decimal) : Bool := decide (0 < d.mantissa)

def isInteger (d : Decimal) : Bool := decide (0 ≤ d.exponent)

/-- The number of digits; zero has one. -/
def digits (d : Decimal) : Nat := Digits.count d.mantissa.natAbs

def leading (d : Decimal) : Int := d.exponent + d.digits - 1

/-- Whether the number is zero or its first digit has a power of ten within the limits. -/
def inRange (d : Decimal) : Bool :=
  d.isZero || decide (d.leading.natAbs ≤ maxExponent.natAbs)

def checked (d : Decimal) : Option Decimal :=
  if d.inRange then some d else none

def neg (d : Decimal) : Decimal := ⟨-d.mantissa, d.exponent⟩

def abs (d : Decimal) : Decimal := ⟨d.mantissa.natAbs, d.exponent⟩

/-- The number with the other sign, if `flip` says so. -/
def negIf (flip : Bool) (d : Decimal) : Decimal := if flip then d.neg else d

/-- The greatest exponent with which an integer is written out. -/
def maxScale : Int := 100000

/-- The value, if the number is whole and has not too many zeros at its end. -/
def toInt? (d : Decimal) : Option Int :=
  if 0 ≤ d.exponent ∧ d.exponent ≤ maxScale then some (d.mantissa * pow10 d.exponent.toNat) else none

/-- The value, if the number is whole and fits in 64 bits with sign. -/
def toWord? (d : Decimal) : Option Int :=
  if d.isInteger ∧ d.leading ≤ 18 then
    d.toInt?.filter fun n => decide (-9223372036854775808 ≤ n ∧ n ≤ 9223372036854775807)
  else none

/-- Whether a whole number is odd. A zero at its end makes it even. -/
def isOdd? (d : Decimal) : Option Bool :=
  if d.exponent < 0 then none
  else if 0 < d.exponent then some false
  else some (d.mantissa % 2 != 0)

/-- The order of the absolute values of two numbers that are not zero: first by the first digit's place. -/
def compareAbs (a b : Decimal) : Ordering :=
  match compare a.leading b.leading with
  | .eq =>
    let e := min a.exponent b.exponent
    compare (a.mantissa.natAbs * pow10 (a.exponent - e).toNat) (b.mantissa.natAbs * pow10 (b.exponent - e).toNat)
  | order => order

def compare (a b : Decimal) : Ordering :=
  if a.mantissa.sign ≠ b.mantissa.sign then Ord.compare a.mantissa.sign b.mantissa.sign
  else if a.mantissa = 0 then .eq
  else if a.mantissa < 0 then (a.compareAbs b).swap
  else a.compareAbs b

instance : Ord Decimal := ⟨Decimal.compare⟩

def lt (a b : Decimal) : Bool := (a.compare b).isLT

def min (a b : Decimal) : Decimal := if b.lt a then b else a

def max (a b : Decimal) : Decimal := if a.lt b then b else a

end Decimal
end Calculator
