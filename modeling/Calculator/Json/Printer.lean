import Calculator.Json
import Calculator.Notation
/-! The compact text of JSON values: no blanks, and no escapes but those that strings need. -/
namespace Calculator.Json

/-- The digit of a hexadecimal number, in lower case. -/
def hexDigit (n : Nat) : Char :=
  if n < 10 then Char.ofNat ('0'.toNat + n) else Char.ofNat ('a'.toNat + (n - 10))

def escapeChar (c : Char) : List Char :=
  if c = '"' then ['\\', '"']
  else if c = '\\' then ['\\', '\\']
  else if c = '\n' then ['\\', 'n']
  else if c = '\r' then ['\\', 'r']
  else if c = '\t' then ['\\', 't']
  else if c.toNat = 0x08 then ['\\', 'b']
  else if c.toNat = 0x0C then ['\\', 'f']
  else if c.toNat < 0x20 then ['\\', 'u', '0', '0', hexDigit (c.toNat / 16), hexDigit (c.toNat % 16)]
  else [c]

def quote (text : String) : List Char :=
  '"' :: text.toList.flatMap escapeChar ++ ['"']

/-- The digits `d₁d₂d₃…` of a positive double whose point stands behind `point` of them. Exponents of the first
digit outside of `-5` to `15` are written, with their sign. -/
def placePoint (digits : List Char) (point : Int) : List Char :=
  if point ≤ -5 ∨ 16 < point then
    let fraction := if digits.length ≤ 1 then [] else '.' :: digits.drop 1
    digits.take 1 ++ fraction ++ Notation.exponentMark (point - 1)
  else if point ≤ 0 then '0' :: '.' :: List.replicate (-point).toNat '0' ++ digits
  else
    let width := point.toNat
    let fraction := if digits.length ≤ width then ['0'] else digits.drop width
    digits.take width ++ List.replicate (width - digits.length) '0' ++ '.' :: fraction

/-- The fewest digits that read back as the same double, with a point or an exponent. Of two equally near texts
it is the one whose last digit is even. -/
def floatText (x : Float) : List Char :=
  match Binary64.parts? x with
  | none => "null".toList
  | some p =>
    let sign := if p.negative then ['-'] else []
    if p.mantissa = 0 then sign ++ "0.0".toList
    else
      let s := p.shortest .even
      sign ++ placePoint (Digits.dropZeros (Digits.ofNat s.digits)) (s.leading + 1)

def commaJoined (texts : List (List Char)) : List Char :=
  [','].intercalate texts

mutual
def chars : Json → List Char
  | null => "null".toList
  | bool b => if b then "true".toList else "false".toList
  | int n => Digits.ofInt n
  | float x => floatText x
  | string s => quote s
  | array items => '[' :: commaJoined (charsList items) ++ [']']
  | object members => Char.ofNat 0x7B :: commaJoined (charsMembers members) ++ [Char.ofNat 0x7D]
def charsList : List Json → List (List Char)
  | [] => []
  | v :: vs => v.chars :: charsList vs
def charsMembers : List (String × Json) → List (List Char)
  | [] => []
  | (k, v) :: rest => (quote k ++ ':' :: v.chars) :: charsMembers rest
end

def print (v : Json) : String :=
  String.ofList v.chars

end Calculator.Json
