import Calculator.Text.Blank
import Calculator.Token
/-!
Reading tokens from text. A numeral is digits with at most one point and an exponent that counts only
if digits follow; a name is a word of ASCII letters, digits and `_`. Characters of no class are dropped.
-/
namespace Calculator.Token

def operatorChars : List Char := ['+', '-', '*', '/', '%', '^', '!']

def startsName (c : Char) : Bool := c.isAlpha || c == '_'

def continuesName (c : Char) : Bool := c.isAlphanum || c == '_'

def startsNumeral (c : Char) (rest : List Char) : Bool :=
  c.isDigit || (c == '.' && (rest.head?.any Char.isDigit))

/-- The point and the digits after it at the head of the text, possibly nothing. -/
def fractionPart : List Char → List Char
  | '.' :: cs => '.' :: cs.takeWhile Char.isDigit
  | _ => []

/-- The exponent at the head of the text: a mark, an optional sign and at least one digit, or nothing. -/
def exponentPart : List Char → List Char
  | mark :: cs =>
    if mark == 'e' || mark == 'E' then
      match cs with
      | sign :: ds =>
        if (sign == '+' || sign == '-') && ds.head?.any Char.isDigit then
          mark :: sign :: ds.takeWhile Char.isDigit
        else if sign.isDigit then mark :: cs.takeWhile Char.isDigit
        else []
      | [] => []
    else []
  | [] => []

def numeral (cs : List Char) : List Char :=
  let whole := cs.takeWhile Char.isDigit
  let fraction := fractionPart (cs.drop whole.length)
  whole ++ fraction ++ exponentPart (cs.drop (whole.length + fraction.length))

/-- The token for a name: a built-in, then one of `functions`, then a constant, else a variable. -/
def ofName (functions : List String) (name : String) (position : Nat) : Token :=
  match Builtin.ofName? name with
  | some b => { kind := .function, text := b.name, position }
  | none =>
    if functions.contains name then { kind := .function, text := name, position }
    else
      match Constant.ofName? name with
      | some c => { kind := .constant, text := c.name, position }
      | none => { kind := .variableName, text := name, position }

/-- The class of a character that is a token by itself, if it is one. -/
def kindOfChar? (c : Char) : Option Kind :=
  if c = '(' then some .lparen
  else if c = ')' then some .rparen
  else if c = ',' then some .comma
  else if operatorChars.contains c then some .operator
  else none

/-- The tokens that are written in the text, whose first character stands at `position`. -/
def scan (functions : List String) (position : Nat) : List Char → List Token
  | [] => []
  | c :: cs =>
    if Text.isBlank c then scan functions (position + 1) cs
    else if startsNumeral c cs then
      let text := c :: (numeral (c :: cs)).tail
      { kind := .number, text := String.ofList text, position } ::
        scan functions (position + text.length) (cs.drop (text.length - 1))
    else if startsName c then
      let text := c :: cs.takeWhile continuesName
      ofName functions (String.ofList text) position ::
        scan functions (position + text.length) (cs.drop (text.length - 1))
    else
      match kindOfChar? c with
      | some kind =>
        { kind, text := String.singleton c, position } :: scan functions (position + 1) cs
      | none => scan functions (position + 1) cs
  termination_by cs => cs.length
  decreasing_by all_goals (simp only [List.length_cons, List.length_drop]; omega)

/-- The tokens of an expression's text, in which `functions` are names of functions besides the built-ins. -/
def tokenize (functions : List String) (text : String) : List Token :=
  withProducts (scan functions 0 text.toList)

end Calculator.Token
