import Calculator.Decimal.Arithmetic
/-!
Sums of series. A sum ends where the next term no longer affects its digits, or where that term leaves the
exponent range; each series comes with a number of steps that is enough for it to end.
-/
namespace Calculator.Decimal

/-- Whether a term is too small to affect the first `p + 2` digits of a sum. -/
def negligible (term sum : Decimal) (p : Precision) : Bool :=
  term.isZero || (!sum.isZero && decide (term.leading < sum.leading - p.digits - 2))

namespace Series

/-- How a sum ended. -/
inductive Ending
  | settled (sum : Decimal)
  | escaped (sum : Decimal)
deriving DecidableEq, Repr

def Ending.sum : Ending → Decimal
  | settled sum | escaped sum => sum

/-- The sum, if it did not end for leaving the range. -/
def Ending.settled? : Ending → Option Decimal
  | settled sum => some sum
  | escaped _ => none

/-- Adds up terms until the sum ends; `next` gives a term and the state behind it. -/
def run {σ : Type} (p : Precision) (next : σ → Option (Decimal × σ)) : Nat → σ → Decimal → Option Ending
  | 0, _, _ => none
  | steps + 1, state, sum =>
    match next state with
    | none => some (.escaped sum)
    | some (term, state) =>
      if negligible term sum p then some (.settled sum)
      else run p next steps state (sum.add term p)

/-- Steps that are enough for a power series in `x`: first its terms grow, then each is smaller by a digit. -/
def steps (x : Decimal) : Nat :=
  pow10 (x.leading + 4).toNat + 10000000000000000

/-- A power of the argument, or a term, and the index that belongs to it. -/
structure Position where
  power : Decimal
  index : Nat

/-- The next term of `1 + r + r² / 2! + …`. -/
def expNext (p : Precision) (r : Decimal) (s : Position) : Option (Decimal × Position) := do
  let term ← (s.power.mul r p).div? (ofInt (s.index + 1 : Nat)) p
  return (term, ⟨term, s.index + 1⟩)

/-- The next term of `x ± x³ / 3 + x⁵ / 5 ± …`, whose signs alternate if `alternating`. -/
def oddPowerNext (p : Precision) (square : Decimal) (alternating : Bool) (s : Position) :
    Option (Decimal × Position) := do
  let power := (s.power.mul square p).negIf alternating
  let term ← power.div? (ofInt (s.index + 2 : Nat)) p
  return (term, ⟨power, s.index + 2⟩)

/-- The next term of a series with factorials, two indices on, whose signs alternate if `alternating`. -/
def factorialNext (p : Precision) (square : Decimal) (alternating : Bool) (s : Position) :
    Option (Decimal × Position) := do
  let term ← (s.power.mul square p).div? (ofInt ((s.index + 1) * (s.index + 2) : Nat)) p
  let term := term.negIf alternating
  return (term, ⟨term, s.index + 2⟩)

/-- The sum `1 + r + r² / 2! + …`, if it ends. -/
def exp? (p : Precision) (r : Decimal) : Option Ending :=
  run p (expNext p r) (steps r) ⟨one, 0⟩ one

/-- The sum `x ± x³ / 3 + x⁵ / 5 ± …`, if it ends. -/
def oddPowers? (p : Precision) (alternating : Bool) (x : Decimal) : Option Ending :=
  run p (oddPowerNext p (x.mul x p) alternating) (steps x) ⟨x, 1⟩ x

/-- The sum `x ± x³ / 3! + x⁵ / 5! ± …`, if it ends. -/
def oddFactorials? (p : Precision) (alternating : Bool) (x : Decimal) : Option Ending :=
  run p (factorialNext p (x.mul x p) alternating) (steps x) ⟨x, 1⟩ x

/-- The sum `1 - x² / 2! + x⁴ / 4! - …`, if it ends. -/
def evenFactorials? (p : Precision) (x : Decimal) : Option Ending :=
  run p (factorialNext p (x.mul x p) true) (steps x) ⟨one, 0⟩ one

end Series
end Calculator.Decimal
