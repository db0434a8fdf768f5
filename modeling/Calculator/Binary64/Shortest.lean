import Calculator.Binary64.Rounding
/-!
Decimal digits of doubles, in exact arithmetic: the fewest that read back as the same double, and a given
number of significant ones. A double can lie half way between two decimal numbers that both read back; which of
them is taken is up to the text that is written.
-/
namespace Calculator.Binary64

/-- A positive decimal number `digits · 10 ^ exponent`. -/
structure Scientific where
  digits : Nat
  /-- The power of ten of the last digit. -/
  exponent : Int
deriving DecidableEq, Repr

def Scientific.leading (s : Scientific) : Int :=
  s.exponent + (Digits.count s.digits - 1 : Nat)

/-- Numerator and denominator of `mantissa · 2 ^ exponent`. -/
def binaryRatio (mantissa : Nat) (exponent : Int) : Nat × Nat :=
  if 0 ≤ exponent then (mantissa * pow2 exponent.toNat, 1) else (mantissa, pow2 (-exponent).toNat)

/-- Numerator and denominator of `num / den / 10 ^ e`. -/
def inDecimalUnits (num den : Nat) (e : Int) : Nat × Nat :=
  if 0 ≤ e then (num, den * pow10 e.toNat) else (num * pow10 (-e).toNat, den)

/-- The power of ten of the first digit of `num / den`. -/
def decimalExponent (num den : Nat) : Int :=
  let e : Int := (Digits.count num : Int) - Digits.count den
  let (n, d) := inDecimalUnits num den e
  if d ≤ n then e else e - 1

/-- Which of two equally near decimal numbers is taken. -/
inductive Tie where
  | up
  | even
deriving DecidableEq, Repr

/-- Whether the lower of the neighbours `below` and `below + 1` is taken when both are equally near. -/
def Tie.takesLower : Tie → Nat → Bool
  | up, _ => false
  | even, below => below % 2 == 0

/-- The reals that round to one double: `low` to `high` in quarters of `2 ^ exponent`. -/
structure Interval where
  value : Nat
  low : Nat
  high : Nat
  /-- Whether the ends belong to the interval. -/
  closed : Bool
  /-- The power of two of four units. -/
  exponent : Int

/-- The interval of a positive double. Below a power of two the doubles lie twice as close. -/
def Parts.interval (p : Parts) : Interval where
  value := 4 * p.mantissa
  low := if p.mantissa = binadeSize ∧ minExponent < p.exponent then 4 * p.mantissa - 1 else 4 * p.mantissa - 2
  high := 4 * p.mantissa + 2
  closed := p.mantissa % 2 == 0
  exponent := p.exponent - 2

/-- The nearest number with `count` digits that lies in the interval, if any does. -/
def Interval.nearest? (i : Interval) (tie : Tie) (leading : Int) (count : Nat) : Option Scientific :=
  let unit := leading - (count - 1 : Nat)
  let (v, scale) := binaryRatio 1 i.exponent
  let (u, d) := inDecimalUnits v scale unit
  -- in grid units, the interval is `[low * u / d, high * u / d]`
  let below := i.value * u / d
  let lowOk := if i.closed then i.low * u ≤ below * d else i.low * u < below * d
  let highOk := if i.closed then (below + 1) * d ≤ i.high * u else (below + 1) * d < i.high * u
  if lowOk ∧ highOk then
    let toLower := i.value * u - below * d
    let toUpper := (below + 1) * d - i.value * u
    if toLower < toUpper ∨ toLower = toUpper ∧ tie.takesLower below then some ⟨below, unit⟩
    else some ⟨below + 1, unit⟩
  else if lowOk then some ⟨below, unit⟩
  else if highOk then some ⟨below + 1, unit⟩
  else none

/-- The number with the fewest digits that reads back as this positive double, and of those the nearest. -/
def Parts.shortest (p : Parts) (tie : Tie) : Scientific :=
  let (n, d) := binaryRatio p.mantissa p.exponent
  let leading := decimalExponent n d
  ((List.range 17).findSome? fun k => p.interval.nearest? tie leading (k + 1)).getD ⟨p.mantissa, p.exponent⟩

/-- The positive double rounded to `count` significant digits; a tie goes to the even digit. -/
def Parts.significant (p : Parts) (count : Nat) : Scientific :=
  let (n, d) := binaryRatio p.mantissa p.exponent
  let unit := decimalExponent n d - (count - 1 : Nat)
  let (n', d') := inDecimalUnits n d unit
  ⟨nearestEven n' d', unit⟩

end Calculator.Binary64
