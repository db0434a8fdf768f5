import Calculator.Power
/-! Decimal digits of natural numbers. -/
namespace Calculator.Digits

/-- The least `d' ≥ d` with `n < 10 ^ d'`. -/
def countFrom (n d : Nat) : Nat :=
  if n < pow10 d then d else countFrom n (d + 1)
termination_by n - d
decreasing_by
  have := lt_pow10 d
  omega

/-- The number of decimal digits of `n`; zero has one. The search starts just below, from the length in bits. -/
def count (n : Nat) : Nat :=
  max 1 (countFrom n (n.log2 * 30102 / 100000))

/-- The value of a decimal digit; any other character counts as its distance from `0`. -/
def valueOf (c : Char) : Nat :=
  c.toNat - '0'.toNat

def toNat (cs : List Char) : Nat :=
  cs.foldl (fun n c => 10 * n + valueOf c) 0

/-- The digits of `n`, the first one not zero unless `n` is. -/
def ofNat (n : Nat) : List Char :=
  Nat.toDigits 10 n

/-- The digits of `n`, after a minus sign if it is negative. -/
def ofInt (n : Int) : List Char :=
  if n < 0 then '-' :: ofNat n.natAbs else ofNat n.natAbs

def dropZeros (cs : List Char) : List Char :=
  (cs.reverse.dropWhile (· == '0')).reverse

/-- Whether the text has digits, and nothing else. -/
def areDigits (cs : List Char) : Bool :=
  !cs.isEmpty && cs.all Char.isDigit

end Calculator.Digits
