import Calculator.Expr.Arena
import Calculator.Expr.Parser
/-!
Reading expressions from tokens into a store. The rules are those for trees. Each goes on with the store that the rules
before it have filled, and gives the place of the node that it has stored last.
-/
namespace Calculator.Arena

/-- Stores a node, if all the children that it names are there. -/
def push? (a : Arena) (content : Content) (span : Span) : Option Arena :=
  if content.children.all (· < a.size) then some (a.push content span) else none

/-- What reading comes to: a value or an error, or nothing at all where a place without node is looked at. -/
abbrev Outcome := ExceptT ParseError Option

/-- A value or an error that does not depend on the store. -/
def Outcome.of {α : Type} (result : Except ParseError α) : Outcome α := ExceptT.mk (some result)

/-- A store and the place of a node. -/
structure Stored where
  arena : Arena
  place : Nat

namespace Reader
open Expr.Parser (Parsed closing binaryOp? sign?)

/-- Reads a tree from the head of the tokens, of which it takes at least one. -/
abbrev Rule := Arena → (ts : List Token) → Outcome (Parsed Stored ts.length)

/-- A value for which none of the tokens is taken. -/
def leaving {α : Type} (value : α) (ts : List Token) : Parsed α (ts.length + 1) := ⟨value, ts, Nat.lt_add_one _⟩

/-- The same, with one token more in front. -/
def afterToken {α : Type} {n : Nat} (read : Parsed α n) : Parsed α (n + 1) :=
  ⟨read.value, read.rest, Nat.lt_succ_of_lt read.rest_lt⟩

/-- The node stored last, unless the tree below it is higher than `limit`. -/
def bounded (limit : Nat) (a : Arena) : Outcome Stored :=
  if a.height a.last ≤ limit then return ⟨a, a.last⟩ else throw .tooDeep

def moreArguments (inner : Rule) (a : Arena) (ts : List Token) :
    Outcome (Parsed (Arena × List Nat) (ts.length + 1)) :=
  match ts with
  | [] => return leaving (a, []) []
  | t :: rest =>
    if t.kind = .comma then do
      let first ← inner a rest
      let others ← moreArguments inner first.value.arena first.rest
      return afterToken ⟨(others.value.1, first.value.place :: others.value.2), others.rest,
        Nat.lt_of_lt_of_le others.rest_lt (Nat.le_succ_of_le first.rest_lt)⟩
    else return leaving (a, []) (t :: rest)
termination_by ts.length
decreasing_by
  have := first.rest_lt
  simp only [List.length_cons]
  omega

/-- Reads the arguments of a call, up to the parenthesis that closes, and gives their places. -/
def arguments (inner : Rule) (a : Arena) (ts : List Token) : Outcome (Parsed (Arena × List Nat) (ts.length + 1)) :=
  match ts with
  | t :: rest =>
    if t.kind = .rparen then return leaving (a, []) (t :: rest)
    else do
      let first ← inner a (t :: rest)
      let others ← moreArguments inner first.value.arena first.rest
      return afterToken ⟨(others.value.1, first.value.place :: others.value.2), others.rest,
        Nat.lt_of_lt_of_le others.rest_lt first.rest_lt⟩
  | [] => do
    let first ← inner a []
    return afterToken ⟨(first.value.arena, [first.value.place]), first.rest, first.rest_lt⟩

/-- Reads a call after the name of its function. -/
def call (limit : Nat) (inner : Rule) (a : Arena) (name : Token) (ts : List Token) :
    Outcome (Parsed Stored ts.length) :=
  match ts with
  | [] => throw (.expectedOpen name.text)
  | t :: rest =>
    if t.kind = .lparen then do
      let args ← arguments inner a rest
      let close ← Outcome.of (closing args.rest)
      let a ← args.value.1.push? (.call name.text args.value.2) ⟨name.position, close.value.stop⟩
      let stored ← bounded limit a
      return ⟨stored, close.rest, Nat.lt_trans close.rest_lt args.rest_lt⟩
    else throw (.expectedOpen name.text)

def primary (limit : Nat) (inner : Rule) : Rule := fun a ts =>
  match ts with
  | [] => throw .unexpectedEnd
  | t :: rest =>
    match t.kind with
    | .number =>
      match Binary64.read? t.text with
      | some value => do
        let a ← a.push? (.number value t.text) t.span
        return leaving ⟨a, a.last⟩ rest
      | none => throw (.invalidNumber t.text)
    | .constant =>
      match Constant.ofName? t.text with
      | some c => do
        let a ← a.push? (.constant c) t.span
        return leaving ⟨a, a.last⟩ rest
      | none => throw (.unknownConstant t.text)
    | .variableName => do
      let a ← a.push? (.free t.text) t.span
      return leaving ⟨a, a.last⟩ rest
    | .function => do
      let read ← call limit inner a t rest
      return afterToken read
    | .lparen => do
      let tree ← inner a rest
      let close ← Outcome.of (closing tree.rest)
      return afterToken ⟨tree.value, close.rest, Nat.lt_trans close.rest_lt tree.rest_lt⟩
    | .operator | .rparen | .comma => throw (.unexpectedToken t.text t.position)

/-- Reads `'!'*` behind an operand. -/
def factorials (limit : Nat) (operand : Stored) (ts : List Token) : Outcome (Parsed Stored (ts.length + 1)) :=
  match ts with
  | [] => return leaving operand []
  | t :: rest =>
    if t.isOperator '!' then do
      let span ← operand.arena.span? operand.place
      let a ← operand.arena.push? (.unary .factorial operand.place) ⟨span.start, t.stop⟩
      let stored ← bounded limit a
      let read ← factorials limit stored rest
      return afterToken read
    else return leaving operand (t :: rest)

def postfixed (limit : Nat) (inner : Rule) : Rule := fun a ts => do
  let operand ← primary limit inner a ts
  let read ← factorials limit operand.value operand.rest
  return read.weaken operand.rest_lt

/-- Reads a unary, whose operand stands one level deeper. -/
def unary (limit : Nat) (inner innerUnary : Rule) : Rule := fun a ts =>
  match ts with
  | [] => postfixed limit inner a []
  | t :: rest =>
    match sign? t with
    | some op => do
      let operand ← innerUnary a rest
      let span ← operand.value.arena.span? operand.value.place
      let a ← operand.value.arena.push? (.unary op operand.value.place) ⟨t.position, span.stop⟩
      let stored ← bounded limit a
      return afterToken ⟨stored, operand.rest, operand.rest_lt⟩
    | none => postfixed limit inner a (t :: rest)

/-- Reads `('^' factor)?` behind a base. -/
def exponent (limit : Nat) (innerFactor : Rule) (base : Stored) (ts : List Token) :
    Outcome (Parsed Stored (ts.length + 1)) :=
  match ts with
  | [] => return leaving base []
  | t :: rest =>
    match binaryOp? [.pow] t with
    | some op => do
      let power ← innerFactor base.arena rest
      let a ← power.value.arena.pushJoined op base.place power.value.place
      let stored ← bounded limit a
      return afterToken (afterToken ⟨stored, power.rest, power.rest_lt⟩)
    | none => return leaving base (t :: rest)

def factor (limit : Nat) (operand innerFactor : Rule) : Rule := fun a ts => do
  let base ← operand a ts
  let read ← exponent limit innerFactor base.value base.rest
  return read.weaken base.rest_lt

/-- Reads `(op operand)*` behind a left operand, for the operators `ops`; the chain groups from the left. -/
def chain (limit : Nat) (ops : List BinaryOp) (operand : Rule) (left : Stored) (ts : List Token) :
    Outcome (Parsed Stored (ts.length + 1)) :=
  match ts with
  | [] => return leaving left []
  | t :: rest =>
    match binaryOp? ops t with
    | some op => do
      let right ← operand left.arena rest
      let a ← right.value.arena.pushJoined op left.place right.value.place
      let stored ← bounded limit a
      let read ← chain limit ops operand stored right.rest
      return afterToken (afterToken (read.weaken right.rest_lt))
    | none => return leaving left (t :: rest)
termination_by ts.length
decreasing_by
  have := right.rest_lt
  simp only [List.length_cons]
  omega

/-- Reads operands joined by the operators `ops`. -/
def joinedBy (limit : Nat) (ops : List BinaryOp) (operand : Rule) : Rule := fun a ts => do
  let left ← operand a ts
  let read ← chain limit ops operand left.value left.rest
  return read.weaken left.rest_lt

/-- The rules that read one level deeper. -/
structure Rules where
  expression : Rule
  factor : Rule
  unary : Rule

def Rules.exhausted : Rules :=
  let refuse : Rule := fun _ _ => throw .tooDeep
  ⟨refuse, refuse, refuse⟩

/-- The rules around those of the next level. -/
def Rules.around (limit : Nat) (deeper : Rules) : Rules :=
  let readUnary := Reader.unary limit deeper.expression deeper.unary
  let readFactor := Reader.factor limit readUnary deeper.factor
  let readTerm := joinedBy limit [.mul, .div, .mod] readFactor
  ⟨joinedBy limit [.add, .sub] readTerm, readFactor, readUnary⟩

/-- The rules with `levels` more levels below them, for trees that are at most `limit` high. -/
def rules (limit : Nat) : Nat → Rules
  | 0 => Rules.exhausted.around limit
  | levels + 1 => (rules limit levels).around limit

end Reader

/-- The store that is filled by reading all tokens, and the place of the root. -/
def ofTokens (ts : List Token) : Outcome Stored := do
  if ts.isEmpty then throw .emptyExpression
  let read ← (Reader.rules Expr.maxDepth Expr.maxDepth).expression empty ts
  match read.rest with
  | [] => return read.value
  | t :: _ => throw (.unexpectedToken t.text t.position)

end Calculator.Arena
