import Calculator.Binary64.Basic
import Calculator.Digits
/-! The double nearest to a ratio or to a decimal number; a tie goes to the even significand. -/
namespace Calculator.Binary64

/-- Numerator and denominator of `num / den · 2 ^ -e`. -/
def scaled (num den : Nat) (e : Int) : Nat × Nat :=
  if 0 ≤ e then (num, den * pow2 e.toNat) else (num * pow2 (-e).toNat, den)

/-- The integer nearest to `num / den`; a tie goes to the even one. -/
def nearestEven (num den : Nat) : Nat :=
  let q := num / den
  let r := num % den
  if den < 2 * r || (2 * r == den && q % 2 == 1) then q + 1 else q

/-- The exponent of the unit in which a ratio is rounded: 53 bits, but no finer than the smallest double. -/
def unitExponent (num den : Nat) : Int :=
  let e : Int := (num.log2 : Int) - den.log2 - 53
  let (n, d) := scaled num den e
  max (if n / d < 2 * binadeSize then e else e + 1) minExponent

/-- The double nearest to `± num / den`, for a denominator that is not zero. -/
def ofRatio (negative : Bool) (num den : Nat) : Float :=
  if num = 0 then signedZero negative
  else
    let e := unitExponent num den
    let (n, d) := scaled num den e
    let magnitude := (e - minExponent).toNat * binadeSize + nearestEven n d
    ofMagnitude negative (min magnitude infinityBits)

/-- The double nearest to `± digits · 10 ^ exponent`. Far outside the range no power of ten is built. -/
def ofDecimal (negative : Bool) (digits : Nat) (exponent : Int) : Float :=
  if digits = 0 then signedZero negative
  else
    let leading := exponent + Digits.count digits
    if 310 < leading then signedInfinity negative
    else if leading < -330 then signedZero negative
    else if 0 ≤ exponent then ofRatio negative (digits * pow10 exponent.toNat) 1
    else ofRatio negative digits (pow10 (-exponent).toNat)

end Calculator.Binary64
