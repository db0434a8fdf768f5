import Calculator.Binary64.Shortest
/-!
The written form of a number: digits without zeros at their end, positional for the exponents `-6` to `20`
and with an exponent outside of them.
-/
namespace Calculator.Notation

/-- The least exponent of the first digit that is written positionally. -/
def leastPositional : Int := -6

/-- The greatest exponent of the first digit that is written positionally. -/
def greatestPositional : Int := 20

/-- The digits `d₁.d₂d₃…`, whose point is written only if digits follow it. -/
def withPoint (whole fraction : List Char) : List Char :=
  if fraction.isEmpty then whole else whole ++ '.' :: fraction

def exponentMark (exponent : Int) : List Char :=
  'e' :: (if 0 ≤ exponent then '+' else '-') :: Digits.ofNat exponent.natAbs

/-- The absolute value `d₁.d₂d₃… · 10 ^ exponent`, from digits that do not end in zero. -/
def magnitude (digits : List Char) (exponent : Int) : List Char :=
  if exponent < leastPositional ∨ greatestPositional < exponent then
    withPoint (digits.take 1) (digits.drop 1) ++ exponentMark exponent
  else if exponent < 0 then
    '0' :: '.' :: List.replicate (-exponent - 1).toNat '0' ++ digits
  else
    let width := exponent.toNat + 1
    withPoint (digits.take width ++ List.replicate (width - digits.length) '0') (digits.drop width)

/-- The number `± d₁.d₂d₃… · 10 ^ exponent`; zeros at the end of the digits are dropped. -/
def write (negative : Bool) (digits : List Char) (exponent : Int) : List Char :=
  let kept := Digits.dropZeros digits
  if kept.isEmpty then ['0']
  else if negative then '-' :: magnitude kept exponent
  else magnitude kept exponent

/-- The double with `precision` significant digits, brought between 1 and 100. -/
def ofFloat (x : Float) (precision : Nat) : String :=
  match Binary64.parts? x with
  | none => if x.isNaN then "NaN" else if 0 < x then "Infinity" else "-Infinity"
  | some p =>
    if p.mantissa = 0 then "0"
    else
      let s := p.significant (max 1 (min precision 100))
      String.ofList (write p.negative (Digits.ofNat s.digits) s.leading)

end Calculator.Notation
