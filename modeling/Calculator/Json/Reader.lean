import Calculator.Binary64.Literal
import Calculator.Json
/-! Reading JSON values from text. -/
namespace Calculator.Json

/-- Whether the character may stand between the parts of a value. -/
def isSpace (c : Char) : Bool :=
  c == ' ' || c == '\n' || c == '\r' || c == '\t'

def skipSpace (cs : List Char) : List Char :=
  cs.dropWhile isSpace

def hexValue? (c : Char) : Option Nat :=
  if c.isDigit then some (c.toNat - '0'.toNat)
  else if 'a' ≤ c ∧ c ≤ 'f' then some (c.toNat - 'a'.toNat + 10)
  else if 'A' ≤ c ∧ c ≤ 'F' then some (c.toNat - 'A'.toNat + 10)
  else none

/-- The number that four hexadecimal digits at the head write, and the rest. -/
def readUnit? : List Char → Option (Nat × List Char)
  | a :: b :: c :: d :: rest => do
    let a ← hexValue? a
    let b ← hexValue? b
    let c ← hexValue? c
    let d ← hexValue? d
    some (((a * 16 + b) * 16 + c) * 16 + d, rest)
  | _ => none

def simpleEscape? (c : Char) : Option Char :=
  if c = '"' ∨ c = '\\' ∨ c = '/' then some c
  else if c = 'n' then some '\n'
  else if c = 'r' then some '\r'
  else if c = 't' then some '\t'
  else if c = 'b' then some (Char.ofNat 0x08)
  else if c = 'f' then some (Char.ofNat 0x0C)
  else none

/-- The character behind `\u`: one unit, or two that are surrogates of each other. -/
def readEscape? (cs : List Char) : Option (Char × List Char) := do
  let (high, rest) ← readUnit? cs
  if high < 0xD800 ∨ 0xDFFF < high then some (Char.ofNat high, rest)
  else if 0xDBFF < high then none
  else
    match rest with
    | '\\' :: 'u' :: rest => do
      let (low, rest) ← readUnit? rest
      if 0xDC00 ≤ low ∧ low ≤ 0xDFFF then
        some (Char.ofNat (0x10000 + (high - 0xD800) * 0x400 + (low - 0xDC00)), rest)
      else none
    | _ => none

/-- The characters up to the quote that ends a string, and what follows it; each takes one unit of fuel. -/
def readString? : Nat → List Char → Option (List Char × List Char)
  | 0, _ => none
  | _, [] => none
  | fuel + 1, c :: cs =>
    if c = '"' then some ([], cs)
    else if c = '\\' then
      match cs with
      | 'u' :: rest => do
        let (c, rest) ← readEscape? rest
        let (text, rest) ← readString? fuel rest
        some (c :: text, rest)
      | e :: rest => do
        let c ← simpleEscape? e
        let (text, rest) ← readString? fuel rest
        some (c :: text, rest)
      | [] => none
    else if c.toNat < 0x20 then none
    else do
      let (text, rest) ← readString? fuel cs
      some (c :: text, rest)

def isNumberChar (c : Char) : Bool :=
  c.isDigit || c == '-' || c == '+' || c == '.' || c == 'e' || c == 'E'

def ofNumberChars? (cs : List Char) : Option Json :=
  let (negative, body) :=
    match cs with
    | '-' :: rest => (true, rest)
    | _ => (false, cs)
  if Digits.areDigits body then
    let n := Digits.toNat body
    let value : Int := if negative then -n else n
    if (negative && n == 0) || value < minInt || maxInt < value then some (float (Binary64.ofDecimal negative n 0))
    else some (int value)
  else
    match body with
    | c :: _ =>
      if c.isDigit then (Binary64.decimal? body).map fun (digits, e) => float (Binary64.ofDecimal negative digits e)
      else none
    | [] => none

/-- The rest behind a word, if the text starts with it. -/
def dropWord? : List Char → List Char → Option (List Char)
  | [], cs => some cs
  | w :: ws, c :: cs => if w = c then dropWord? ws cs else none
  | _ :: _, [] => none

mutual
def readValue? : Nat → List Char → Option (Json × List Char)
  | 0, _ => none
  | fuel + 1, text =>
    match skipSpace text with
    | [] => none
    | c :: cs =>
      if c = '"' then do
        let (s, rest) ← readString? (cs.length + 1) cs
        some (string (String.ofList s), rest)
      else if c = '[' then
        match skipSpace cs with
        | ']' :: rest => some (array [], rest)
        | _ => do
          let (items, rest) ← readItems? fuel cs
          some (array items, rest)
      else if c.toNat = 0x7B then do
        let (members, rest) ← readMembers? fuel cs
        some (ofMembers members, rest)
      else if c = 'n' then (dropWord? "ull".toList cs).map fun rest => (null, rest)
      else if c = 't' then (dropWord? "rue".toList cs).map fun rest => (bool true, rest)
      else if c = 'f' then (dropWord? "alse".toList cs).map fun rest => (bool false, rest)
      else
        let number := (c :: cs).takeWhile isNumberChar
        (ofNumberChars? number).map fun v => (v, (c :: cs).drop number.length)
/-- The items of an array that is not empty, behind its bracket. -/
def readItems? : Nat → List Char → Option (List Json × List Char)
  | 0, _ => none
  | fuel + 1, text => do
    let (v, rest) ← readValue? fuel text
    match skipSpace rest with
    | ',' :: rest => do
      let (vs, rest) ← readItems? fuel rest
      some (v :: vs, rest)
    | ']' :: rest => some ([v], rest)
    | _ => none
/-- The members of an object behind its brace, or behind a comma. -/
def readMembers? : Nat → List Char → Option (List (String × Json) × List Char)
  | 0, _ => none
  | fuel + 1, text =>
    match skipSpace text with
    | [] => none
    | c :: cs =>
      if c.toNat = 0x7D then some ([], cs)
      else if c = '"' then do
        let (key, rest) ← readString? (cs.length + 1) cs
        let rest ← dropWord? [':'] (skipSpace rest)
        let (v, rest) ← readValue? fuel rest
        match skipSpace rest with
        | [] => none
        | d :: rest =>
          if d = ',' then do
            let (others, rest) ← readMembers? fuel rest
            some ((String.ofList key, v) :: others, rest)
          else if d.toNat = 0x7D then some ([(String.ofList key, v)], rest)
          else none
      else none
end

def read? (text : String) : Option Json :=
  let cs := text.toList
  match readValue? (cs.length + 1) cs with
  | some (v, rest) => if (skipSpace rest).isEmpty then some v else none
  | none => none

end Calculator.Json
