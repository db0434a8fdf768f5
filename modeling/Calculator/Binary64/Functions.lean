import Calculator.Binary64.Rounding
/-! Functions on doubles that the core library lacks. -/
namespace Calculator.Binary64

def pi : Float := .ofBits 0x400921FB54442D18

/-- The part of the number before the point, with its sign. -/
def truncate (x : Float) : Float :=
  if x < 0 then x.ceil else x.floor

/-- Whether the number has a part after the point; neither an infinity nor what is not a number is whole. -/
def hasFraction (x : Float) : Bool :=
  x - truncate x != 0

/-- The exact remainder of finite doubles; its quotient is cut toward zero, and it has the sign of the dividend. -/
def Parts.remainder (a b : Parts) : Float :=
  let e := min a.exponent b.exponent
  let m := a.mantissa * pow2 (a.exponent - e).toNat
  let n := b.mantissa * pow2 (b.exponent - e).toNat
  if 0 ≤ e then ofRatio a.negative (m % n * pow2 e.toNat) 1
  else ofRatio a.negative (m % n) (pow2 (-e).toNat)

/-- The remainder of a division that is cut toward zero. -/
def remainder (x y : Float) : Float :=
  match parts? x, parts? y with
  | some a, some b => if b.mantissa = 0 then nan else a.remainder b
  | some _, none => if y.isNaN then nan else x
  | none, _ => nan

/-- The smaller number, or the other operand of one that is not a number. -/
def min (x y : Float) : Float :=
  if x.isNaN then y else if y.isNaN then x else if y < x then y else x

/-- The greater number, or the other operand of one that is not a number. -/
def max (x y : Float) : Float :=
  if x.isNaN then y else if y.isNaN then x else if x < y then y else x

/-- The logarithm of `1 + x`; the quotient makes up for what the sum has rounded off. -/
def log1p (x : Float) : Float :=
  let u := 1 + x
  if u == 1 then x
  else if u.isInf then u
  else u.log * (x / (u - 1))

def atanh (x : Float) : Float :=
  if x == 0 then x else 0.5 * log1p (2 * x / (1 - x))

end Calculator.Binary64
