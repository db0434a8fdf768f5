import Calculator.Binary64.Rounding
/-!
The text of a double: an optional sign, then `inf`, `infinity` or `nan` in any case, or a decimal number with
at least one digit, at most one point, and an optional exponent.
-/
namespace Calculator.Binary64

/-- The sign at the head of the text, and what follows it. -/
def splitSign : List Char → Bool × List Char
  | '-' :: cs => (true, cs)
  | '+' :: cs => (false, cs)
  | cs => (false, cs)

/-- The number after the exponent mark: an optional sign and at least one digit. -/
def exponent? (cs : List Char) : Option Int :=
  let (negative, ds) := splitSign cs
  if Digits.areDigits ds then some (if negative then -Digits.toNat ds else Digits.toNat ds) else none

/-- The exponent that the rest of a numeral writes, with its mark; none is zero. -/
def exponentOfRest? : List Char → Option Int
  | [] => some 0
  | c :: cs => if c == 'e' || c == 'E' then exponent? cs else none

/-- The digits and the power of ten of the last one, of an unsigned decimal number. -/
def decimal? (cs : List Char) : Option (Nat × Int) :=
  let whole := cs.takeWhile Char.isDigit
  let rest := cs.drop whole.length
  let (fraction, rest) :=
    match rest with
    | '.' :: ds => (ds.takeWhile Char.isDigit, ds.dropWhile Char.isDigit)
    | _ => ([], rest)
  if whole.isEmpty && fraction.isEmpty then none
  else (exponentOfRest? rest).map fun e => (Digits.toNat (whole ++ fraction), e - fraction.length)

/-- The double that the text writes, correctly rounded; an overflow is infinite. -/
def read? (text : String) : Option Float :=
  let (negative, cs) := splitSign text.toList
  let word := String.ofList (cs.map Char.toLower)
  if word = "inf" ∨ word = "infinity" then some (signedInfinity negative)
  else if word = "nan" then some nan
  else (decimal? cs).map fun (digits, e) => ofDecimal negative digits e

end Calculator.Binary64
