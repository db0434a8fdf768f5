import Calculator.Binary64.Literal
import Calculator.Expr
import Calculator.Token.Lexer
/-!
Reading expressions from tokens, by one rule for each class of the grammar.

    expression  ::=  term (('+' | '-') term)*
    term        ::=  factor (('*' | '/' | '%') factor)*
    factor      ::=  unary ('^' factor)?
    unary       ::=  ('+' | '-') unary | postfix
    postfix     ::=  primary '!'*
    primary     ::=  number | constant | variable | '(' expression ')'
                  |  function '(' (expression (',' expression)*)? ')'

A sign binds more tightly than `^`. Parentheses, arguments, operands of signs and right operands of `^` stand
one level deeper than what surrounds them; a rule knows how many levels are left.
-/
namespace Calculator

/-- Why a text is not an expression. -/
inductive ParseError
  | emptyExpression
  /-- There are too many levels, or the tree is too high. -/
  | tooDeep
  /-- The tokens end where an operand is missing. -/
  | unexpectedEnd
  | unexpectedToken (text : String) (position : Nat)
  /-- Another token stands where a parenthesis has to close. -/
  | expectedClose (position : Nat) (found : String)
  /-- The tokens end before a parenthesis closes. -/
  | expectedCloseAtEnd
  | expectedOpen (function : String)
  | invalidNumber (text : String)
  | unknownConstant (text : String)
deriving DecidableEq, Repr

def ParseError.message : ParseError → String
  | emptyExpression => "Empty expression"
  | tooDeep => "Expression nested too deeply"
  | unexpectedEnd => "Unexpected end of expression"
  | unexpectedToken text position => s!"Unexpected token '{text}' at position {position}"
  | expectedClose position found => s!"Expected ')' at position {position}, found '{found}'"
  | expectedCloseAtEnd => "Expected ')' but reached end of expression"
  | expectedOpen function => s!"Expected '(' after function '{function}'"
  | invalidNumber text => s!"Invalid number '{text}'"
  | unknownConstant text => s!"Unknown constant '{text}'"

namespace Expr

/-- The greatest height of a tree, and the greatest number of levels inside each other. -/
def maxDepth : Nat := 500

namespace Parser

/-- What was read and the tokens that are left, fewer than `bound`. -/
structure Parsed (α : Type) (bound : Nat) where
  value : α
  rest : List Token
  /-- Reading goes forward. -/
  rest_lt : rest.length < bound

def Parsed.weaken {α : Type} {m n : Nat} (p : Parsed α m) (h : m ≤ n) : Parsed α n :=
  ⟨p.value, p.rest, Nat.lt_of_lt_of_le p.rest_lt h⟩

/-- Reads a tree from the head of the tokens, of which it takes at least one. -/
abbrev Rule := (ts : List Token) → Except ParseError (Parsed Expr ts.length)

/-- The tree, unless it is higher than `limit`. -/
def bounded (limit : Nat) (e : Expr) : Except ParseError Expr :=
  if e.height ≤ limit then .ok e else .error .tooDeep

def binaryOp? (ops : List BinaryOp) (t : Token) : Option BinaryOp :=
  if t.kind = .operator then (BinaryOp.ofSymbol? t.text).filter ops.contains else none

def sign? (t : Token) : Option UnaryOp :=
  if t.isOperator '-' then some .minus else if t.isOperator '+' then some .plus else none

def closing (ts : List Token) : Except ParseError (Parsed Token ts.length) :=
  match ts with
  | [] => .error .expectedCloseAtEnd
  | t :: rest =>
    if t.kind = .rparen then .ok ⟨t, rest, Nat.lt_succ_self _⟩
    else .error (.expectedClose t.position t.text)

def moreArguments (inner : Rule) (ts : List Token) : Except ParseError (Parsed (List Expr) (ts.length + 1)) :=
  match ts with
  | [] => .ok ⟨[], [], Nat.lt_succ_self _⟩
  | t :: rest =>
    if t.kind = .comma then do
      let first ← inner rest
      let others ← moreArguments inner first.rest
      .ok ⟨first.value :: others.value, others.rest, by
        have := first.rest_lt
        have := others.rest_lt
        simp only [List.length_cons]
        omega⟩
    else .ok ⟨[], t :: rest, Nat.lt_succ_self _⟩
termination_by ts.length
decreasing_by
  have := first.rest_lt
  simp only [List.length_cons]
  omega

/-- Reads the arguments of a call, up to the parenthesis that closes. -/
def arguments (inner : Rule) (ts : List Token) : Except ParseError (Parsed (List Expr) (ts.length + 1)) :=
  match ts with
  | t :: rest =>
    if t.kind = .rparen then .ok ⟨[], t :: rest, Nat.lt_succ_self _⟩
    else do
      let first ← inner (t :: rest)
      let others ← moreArguments inner first.rest
      .ok ⟨first.value :: others.value, others.rest, by
        have := first.rest_lt
        have := others.rest_lt
        omega⟩
  | [] => do
    let first ← inner []
    .ok ⟨[first.value], first.rest, Nat.lt_succ_of_lt first.rest_lt⟩

/-- Reads a call after the name of its function. -/
def call (limit : Nat) (inner : Rule) (name : Token) (ts : List Token) : Except ParseError (Parsed Expr ts.length) :=
  match ts with
  | [] => .error (.expectedOpen name.text)
  | t :: rest =>
    if t.kind = .lparen then do
      let args ← arguments inner rest
      let close ← closing args.rest
      let tree ← bounded limit (.call name.text args.value ⟨name.position, close.value.stop⟩)
      .ok ⟨tree, close.rest, by
        have := args.rest_lt
        have := close.rest_lt
        simp only [List.length_cons]
        omega⟩
    else .error (.expectedOpen name.text)

def primary (limit : Nat) (inner : Rule) : Rule
  | [] => .error .unexpectedEnd
  | t :: rest =>
    match t.kind with
    | .number =>
      match Binary64.read? t.text with
      | some value => .ok ⟨.number value t.text t.span, rest, Nat.lt_succ_self _⟩
      | none => .error (.invalidNumber t.text)
    | .constant =>
      match Constant.ofName? t.text with
      | some c => .ok ⟨.constant c t.span, rest, Nat.lt_succ_self _⟩
      | none => .error (.unknownConstant t.text)
    | .variableName => .ok ⟨.free t.text t.span, rest, Nat.lt_succ_self _⟩
    | .function => do
      let read ← call limit inner t rest
      .ok (read.weaken (Nat.le_succ _))
    | .lparen => do
      let tree ← inner rest
      let close ← closing tree.rest
      .ok ⟨tree.value, close.rest, by
        have := tree.rest_lt
        have := close.rest_lt
        simp only [List.length_cons]
        omega⟩
    | .operator | .rparen | .comma => .error (.unexpectedToken t.text t.position)

/-- Reads `'!'*` behind an operand. -/
def factorials (limit : Nat) (operand : Expr) (ts : List Token) : Except ParseError (Parsed Expr (ts.length + 1)) :=
  match ts with
  | [] => .ok ⟨operand, [], Nat.lt_succ_self _⟩
  | t :: rest =>
    if t.isOperator '!' then do
      let tree ← bounded limit (.unary .factorial operand ⟨operand.span.start, t.stop⟩)
      let read ← factorials limit tree rest
      .ok (read.weaken (Nat.le_succ _))
    else .ok ⟨operand, t :: rest, Nat.lt_succ_self _⟩

def postfixed (limit : Nat) (inner : Rule) : Rule := fun ts => do
  let operand ← primary limit inner ts
  let read ← factorials limit operand.value operand.rest
  .ok (read.weaken operand.rest_lt)

/-- Reads a unary, whose operand stands one level deeper. -/
def unary (limit : Nat) (inner innerUnary : Rule) : Rule
  | [] => postfixed limit inner []
  | t :: rest =>
    match sign? t with
    | some op => do
      let operand ← innerUnary rest
      let tree ← bounded limit (.unary op operand.value ⟨t.position, operand.value.span.stop⟩)
      .ok ⟨tree, operand.rest, Nat.lt_succ_of_lt operand.rest_lt⟩
    | none => postfixed limit inner (t :: rest)

/-- Reads `('^' factor)?` behind a base. -/
def exponent (limit : Nat) (innerFactor : Rule) (base : Expr) (ts : List Token) :
    Except ParseError (Parsed Expr (ts.length + 1)) :=
  match ts with
  | [] => .ok ⟨base, [], Nat.lt_succ_self _⟩
  | t :: rest =>
    match binaryOp? [.pow] t with
    | some op => do
      let power ← innerFactor rest
      let tree ← bounded limit (joined op base power.value)
      .ok ⟨tree, power.rest, by
        have := power.rest_lt
        simp only [List.length_cons]
        omega⟩
    | none => .ok ⟨base, t :: rest, Nat.lt_succ_self _⟩

def factor (limit : Nat) (operand innerFactor : Rule) : Rule := fun ts => do
  let base ← operand ts
  let read ← exponent limit innerFactor base.value base.rest
  .ok (read.weaken base.rest_lt)

/-- Reads `(op operand)*` behind a left operand, for the operators `ops`; the chain groups from the left. -/
def chain (limit : Nat) (ops : List BinaryOp) (operand : Rule) (left : Expr) (ts : List Token) :
    Except ParseError (Parsed Expr (ts.length + 1)) :=
  match ts with
  | [] => .ok ⟨left, [], Nat.lt_succ_self _⟩
  | t :: rest =>
    match binaryOp? ops t with
    | some op => do
      let right ← operand rest
      let tree ← bounded limit (joined op left right.value)
      let read ← chain limit ops operand tree right.rest
      .ok (read.weaken (by
        have := right.rest_lt
        simp only [List.length_cons]
        omega))
    | none => .ok ⟨left, t :: rest, Nat.lt_succ_self _⟩
termination_by ts.length
decreasing_by
  have := right.rest_lt
  simp only [List.length_cons]
  omega

/-- Reads operands joined by the operators `ops`. -/
def joinedBy (limit : Nat) (ops : List BinaryOp) (operand : Rule) : Rule := fun ts => do
  let left ← operand ts
  let read ← chain limit ops operand left.value left.rest
  .ok (read.weaken left.rest_lt)

/-- The rules that read one level deeper. -/
structure Rules where
  expression : Rule
  factor : Rule
  unary : Rule

def Rules.exhausted : Rules :=
  let refuse : Rule := fun _ => .error .tooDeep
  ⟨refuse, refuse, refuse⟩

/-- The rules around those of the next level. -/
def Rules.around (limit : Nat) (deeper : Rules) : Rules :=
  let readUnary := Parser.unary limit deeper.expression deeper.unary
  let readFactor := Parser.factor limit readUnary deeper.factor
  let readTerm := joinedBy limit [.mul, .div, .mod] readFactor
  ⟨joinedBy limit [.add, .sub] readTerm, readFactor, readUnary⟩

/-- The rules with `levels` more levels below them, for trees that are at most `limit` high. -/
def rules (limit : Nat) : Nat → Rules
  | 0 => Rules.exhausted.around limit
  | levels + 1 => (rules limit levels).around limit

end Parser

def ofTokens (ts : List Token) : Except ParseError Expr := do
  if ts.isEmpty then throw .emptyExpression
  let read ← (Parser.rules maxDepth maxDepth).expression ts
  match read.rest with
  | [] => return read.value
  | t :: _ => throw (.unexpectedToken t.text t.position)

/-- The expression that the text writes, in which `functions` may be called besides the built-ins. -/
def parse (functions : List String) (text : String) : Except ParseError Expr :=
  ofTokens (Token.tokenize functions text)

end Expr
end Calculator
