import Calculator.Binary64.Shortest
import Calculator.Decimal.Rounding
import Calculator.Notation
import Calculator.Text.Blank
/-!
The text of decimal numbers. A literal is a sign, digits with at most one point, and an exponent that fits
in 64 bits; blanks around it do not count.
-/
namespace Calculator.Decimal

/-- Why a text is not a decimal number. -/
inductive LiteralError
  | invalid (text : String)
  /-- Its value, or its exponent, is too large or too small. -/
  | outOfRange (text : String)
deriving DecidableEq, Repr

def LiteralError.message : LiteralError → String
  | invalid text => s!"Cannot parse '{text}' as a decimal"
  | outOfRange text => s!"'{text}' is outside the decimal range"

/-- What reading an integer of 64 bits gives. -/
inductive WordReading
  | value (n : Int)
  /-- Some character is no digit, or there is none. -/
  | malformed
  /-- The digits up to some place are too large. -/
  | overflow
deriving DecidableEq, Repr

/-- Reads the digits behind `n`, with this sign; it stops at the first character that is no digit or too much. -/
def readDigits (negative : Bool) (n : Nat) : List Char → WordReading
  | [] => .value (if negative then -n else n)
  | c :: cs =>
    if c.isDigit then
      let next := 10 * n + Digits.valueOf c
      if next ≤ (if negative then 9223372036854775808 else 9223372036854775807) then readDigits negative next cs
      else .overflow
    else .malformed

/-- Reads an integer of 64 bits: an optional sign and at least one digit. -/
def readWord : List Char → WordReading
  | [] => .malformed
  | '-' :: cs => if cs.isEmpty then .malformed else readDigits true 0 cs
  | '+' :: cs => if cs.isEmpty then .malformed else readDigits false 0 cs
  | cs => readDigits false 0 cs

/-- The text before the first character that satisfies `p`, and the text after it if there is one. -/
def splitAtFirst (p : Char → Bool) (cs : List Char) : List Char × Option (List Char) :=
  match cs.dropWhile (!p ·) with
  | [] => (cs, none)
  | _ :: after => (cs.takeWhile (!p ·), some after)

/-- Whether the integer fits in 64 bits with sign. -/
def fitsWord (n : Int) : Bool :=
  decide (-9223372036854775808 ≤ n ∧ n ≤ 9223372036854775807)

/-- The number `± digits · 10 ^ exponent`, if its exponent and its first digit's place are in range. The least place of 64
bits is out of range, too, although its absolute value does not fit in a word. -/
def ofDigits? (negative : Bool) (digits : Nat) (exponent : Int) : Option Decimal :=
  let leading := exponent + Digits.count digits - 1
  if fitsWord exponent && fitsWord leading && decide (leading.natAbs ≤ maxExponent.natAbs) then
    some (ofParts (if negative then -digits else digits) exponent)
  else none

/-- The sign at the head of the text, and what follows it. -/
def takeSign : List Char → Bool × List Char
  | '-' :: cs => (true, cs)
  | '+' :: cs => (false, cs)
  | cs => (false, cs)

def parse (text : String) : Except LiteralError Decimal :=
  let (negative, body) := takeSign (Text.trim text.toList)
  let (number, exponentText?) := splitAtFirst (fun c => c == 'e' || c == 'E') body
  let (whole, fraction?) := splitAtFirst (· == '.') number
  let fraction := fraction?.getD []
  if !Digits.areDigits (whole ++ fraction) then .error (.invalid text)
  else
    match exponentText?.elim (.value 0) readWord with
    | .malformed => .error (.invalid text)
    | .overflow => .error (.outOfRange text)
    | .value exponent =>
      let digits := Digits.toNat (whole ++ fraction)
      if digits = 0 then .ok zero
      else
        match ofDigits? negative digits (exponent - fraction.length) with
        | some d => .ok d
        | none => .error (.outOfRange text)

/-- The text of the number, with all its digits. -/
def print (d : Decimal) : String :=
  if d.isZero then "0"
  else String.ofList (Notation.write d.isNegative (Digits.ofNat d.mantissa.natAbs) d.leading)

/-- The text of the number with at most `digits` significant digits. -/
def printSignificant (d : Decimal) (digits : Nat) : String :=
  (d.roundTo (.ofRequest digits)).print

def toFloat (d : Decimal) : Float :=
  Binary64.ofDecimal d.isNegative d.mantissa.natAbs d.exponent

/-- The shortest decimal number that reads back as the double, if that is finite. Of two equally near ones it is
the greater. -/
def ofFloat? (x : Float) : Option Decimal :=
  (Binary64.parts? x).map fun p =>
    if p.mantissa = 0 then zero
    else
      let s := p.shortest .up
      ofParts (if p.negative then -s.digits else s.digits) s.exponent

end Calculator.Decimal
