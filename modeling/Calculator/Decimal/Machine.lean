import Calculator.Decimal.Literal
import Calculator.Decimal.Root
/-!
Decimal arithmetic on a machine. Mantissas have any length, but exponents, numbers of digits and shifts are words of 64
bits with sign, precisions are words of 32 bits without, and a power of ten is written out for the low 32 bits of its
shift. What becomes of a result that does not fit is up to the machine.
-/
namespace Calculator

/-- What becomes of exact results. -/
structure Machine (m : Type → Type) where
  /-- The result of a computation in 64 bits with sign. -/
  word : Int → m Int
  /-- The result of a computation, or of a conversion, in 32 bits without sign. -/
  short : Int → m Nat
  /-- The power of ten that is written out for a shift. -/
  power : Int → m Nat

namespace Machine

/-- Whether the number fits in 32 bits without sign. -/
def fitsShort (n : Int) : Bool := decide (0 ≤ n ∧ n < 4294967296)

/-- The machine that stops at a result that does not fit. -/
def checking : Machine Option where
  word n := if Decimal.fitsWord n then some n else none
  short n := if fitsShort n then some n.toNat else none
  power n := if fitsShort n then some (pow10 n.toNat) else none

/-- The machine that keeps the low bits. -/
def wrapping : Machine Id where
  word n := n.bmod 18446744073709551616
  short n := (n % 4294967296).toNat
  power n := pow10 (n % 4294967296).toNat

variable {m : Type → Type} [Monad m] (M : Machine m)

/-! ### Parts of a number -/

/-- Drops the zeros at the end of a mantissa, one by one. -/
def dropZeros (mantissa exponent : Int) : m Decimal :=
  if mantissa ≠ 0 ∧ mantissa % 10 = 0 then do dropZeros (mantissa / 10) (← M.word (exponent + 1))
  else return ⟨mantissa, exponent⟩
termination_by mantissa.natAbs
decreasing_by omega

def ofParts (mantissa exponent : Int) : m Decimal :=
  if mantissa = 0 then return .zero else M.dropZeros mantissa exponent

def leading (d : Decimal) : m Int := do M.word ((← M.word (d.exponent + d.digits)) - 1)

def checked (d : Decimal) : m (Option Decimal) := do
  if d.isZero then return some d
  else if (← M.word (← M.leading d).natAbs) ≤ Decimal.maxExponent then return some d
  else return none

/-- The power of ten between two places. -/
def between (high low : Int) : m Nat := do M.power (← M.word (high - low))

/-! ### Order -/

def compareAbs (a b : Decimal) : m Ordering := do
  match Ord.compare (← M.leading a) (← M.leading b) with
  | .eq =>
    let e := min a.exponent b.exponent
    return Ord.compare (a.mantissa.natAbs * (← M.between a.exponent e)) (b.mantissa.natAbs * (← M.between b.exponent e))
  | order => return order

def compare (a b : Decimal) : m Ordering := do
  if a.mantissa.sign ≠ b.mantissa.sign then return Ord.compare a.mantissa.sign b.mantissa.sign
  else if a.mantissa = 0 then return .eq
  else if a.mantissa < 0 then return (← M.compareAbs a b).swap
  else M.compareAbs a b

/-! ### Arithmetic -/

/-- Rounds to `p` significant digits. -/
def roundTo (d : Decimal) (p : Nat) : m Decimal := do
  let excess ← M.word (d.digits - p)
  if excess ≤ 0 then return d
  else
    let q : Int := Decimal.nearestUp d.mantissa.natAbs (← M.power excess)
    M.ofParts (if d.isNegative then -q else q) (← M.word (d.exponent + excess))

def add (a b : Decimal) (p : Nat) : m Decimal := do
  if a.isZero then M.roundTo b p
  else if b.isZero then M.roundTo a p
  else
    let gap ← M.word ((← M.leading a) - (← M.leading b))
    let limit ← M.word (p + 2)
    if limit < gap then M.roundTo a p
    else if limit < (← M.word (-gap)) then M.roundTo b p
    else
      let e := min a.exponent b.exponent
      let sum := a.mantissa * (← M.between a.exponent e) + b.mantissa * (← M.between b.exponent e)
      M.roundTo (← M.ofParts sum e) p

def sub (a b : Decimal) (p : Nat) : m Decimal :=
  M.add a b.neg p

def mul (a b : Decimal) (p : Nat) : m Decimal := do
  M.roundTo (← M.ofParts (a.mantissa * b.mantissa) (← M.word (a.exponent + b.exponent))) p

/-- The product, if it is in range. The exponent is looked at before it is used. -/
def mul? (a b : Decimal) (p : Nat) : m (Option Decimal) := do
  if a.isZero || b.isZero then return some .zero
  else if Decimal.fitsWord (a.exponent + b.exponent) then
    M.checked (← M.roundTo (← M.ofParts (a.mantissa * b.mantissa) (a.exponent + b.exponent)) p)
  else return none

def withSticky (quotient : Nat) (exact : Bool) (exponent : Int) : m Decimal := do
  if exact then M.ofParts quotient exponent else M.ofParts (quotient * 10 + 1) (← M.word (exponent - 1))

/-- The quotient, if it is defined and in range. The exponent is looked at before it is used. -/
def div? (a b : Decimal) (p : Nat) : m (Option Decimal) := do
  if b.isZero then return none
  else if a.isZero then return some .zero
  else
    let wanted ← M.word ((← M.word (p + 2)) + b.digits)
    let shift := max (← M.word (wanted - a.digits)) 0
    let numerator := a.mantissa.natAbs * (← M.power shift)
    let divisor := b.mantissa.natAbs
    if Decimal.fitsWord (a.exponent - b.exponent) && Decimal.fitsWord (a.exponent - b.exponent - shift) then
      let magnitude ← M.withSticky (numerator / divisor) (numerator % divisor == 0) (a.exponent - b.exponent - shift)
      M.checked (← M.roundTo (magnitude.negIf (a.isNegative != b.isNegative)) p)
    else return none

def remainderAbs (a b : Decimal) : m Nat := do
  let divisor := b.mantissa.natAbs
  if b.exponent ≤ a.exponent then
    let gap ← M.word (a.exponent - b.exponent)
    return a.mantissa.natAbs % divisor * Decimal.powMod 10 gap.toNat divisor % divisor
  else return a.mantissa.natAbs % (divisor * (← M.between b.exponent a.exponent))

def rem? (a b : Decimal) (p : Nat) : m (Option Decimal) := do
  if b.isZero then return none
  else if a.isZero then return some (← M.roundTo a p)
  else if (← M.compare a.abs b.abs).isLT then return some (← M.roundTo a p)
  else
    let r ← M.ofParts (← M.remainderAbs a b) (min a.exponent b.exponent)
    return some (← M.roundTo (r.negIf a.isNegative) p)

/-! ### Whole numbers -/

def floor (d : Decimal) : m Decimal := do
  if d.isInteger then return d
  else if (← M.leading d) < 0 then (if d.isNegative then M.ofParts (-1) 0 else return .zero)
  else M.ofParts (d.mantissa.fdiv (← M.power (← M.word (-d.exponent)))) 0

def ceil (d : Decimal) : m Decimal := do
  return (← M.floor d.neg).neg

def round (d : Decimal) : m Decimal := do
  let p ← M.short (Precision.maxDigits + (← M.short d.digits))
  M.floor (← M.add d (← M.ofParts 5 (-1)) p)

/-! ### Powers and roots -/

def powLoop (p : Nat) (base acc : Decimal) (n : Nat) : m (Option Decimal) :=
  if n = 0 then return some acc
  else do
    match ← (if n % 2 = 1 then M.mul? acc base p else return some acc) with
    | none => return none
    | some acc =>
      if n / 2 = 0 then return some acc
      else
        match ← M.mul? base base p with
        | none => return none
        | some base => powLoop p base acc (n / 2)
termination_by n
decreasing_by omega

def powInt? (base : Decimal) (n : Int) (p : Nat) : m (Option Decimal) := do
  if n = 0 then return some .one
  else if base.isZero then return (if n < 0 then none else some .zero)
  else
    let guard ← M.short (Decimal.guardDigits + (← M.short (Digits.count n.natAbs)))
    let wp ← M.short (p + guard)
    match ← M.powLoop wp base .one n.natAbs with
    | none => return none
    | some power =>
      match ← (if n < 0 then M.div? .one power wp else return some power) with
      | none => return none
      | some power => return some (← M.roundTo power p)

def rootOfPositive (k : Nat) (d : Decimal) (p : Nat) : m Decimal := do
  let product ← M.word (k * (← M.word (p + 2)))
  let padding := max (← M.word (product - d.digits)) 0
  let shift ← M.word (padding + (← M.word (d.exponent - padding)) % k)
  let scaled := d.mantissa.natAbs * (← M.power shift)
  let root := Decimal.rootFloor k scaled
  let exponent ← M.word (d.exponent - shift)
  M.roundTo (← M.withSticky root (Nat.pow root k == scaled) (exponent / k)) p

def sqrt? (d : Decimal) (p : Nat) : m (Option Decimal) := do
  if d.isNegative then return none
  else if d.isZero then return some .zero
  else return some (← M.rootOfPositive 2 d p)

def cbrt (d : Decimal) (p : Nat) : m Decimal := do
  if d.isZero then return .zero
  else return (← M.rootOfPositive 3 d.abs p).negIf d.isNegative

end Machine
end Calculator
