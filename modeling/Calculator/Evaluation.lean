import Calculator.AngleUnit
import Calculator.Bindings
import Calculator.Evaluation.Error
/-!
Evaluating expressions in any arithmetic. A node has a value if its children have and the arithmetic gives it
one; the error of a node carries the node's span. Functions of the user see the variables of their caller
besides their own parameters.
-/
namespace Calculator.Evaluation

/-- The operations that an evaluation needs of its values. -/
structure Arithmetic (α : Type) where
  number : Float → String → Except Cause α
  constant : Constant → α
  /-- A variable's value as it enters an expression. -/
  fetch : α → α
  /-- The value of an argument that is not given. -/
  zero : α
  neg : α → α
  factorial : α → Except Cause α
  combine : BinaryOp → α → α → Except Cause α
  power : α → α → Except Cause α
  root : α → α → Except Cause α
  apply : Builtin → α → Except Cause α
  /-- The least of some values, the first of which is given. -/
  least : α → List α → α
  /-- The greatest of some values, the first of which is given. -/
  greatest : α → List α → α
  accept : α → Except Cause α

namespace Arithmetic

variable {α : Type}

def unary (A : Arithmetic α) : UnaryOp → α → Except Cause α
  | .plus, x => .ok x
  | .minus, x => .ok (A.neg x)
  | .factorial, x => A.factorial x

def binary (A : Arithmetic α) (op : BinaryOp) (x y : α) : Except Cause α :=
  if op = .pow then A.power x y else A.combine op x y

def builtin (A : Arithmetic α) (b : Builtin) (args : List α) : Except Cause α :=
  match b, args with
  | .pow, [x, y] => A.power x y
  | .root, [x, y] => A.root x y
  | .min, x :: xs => .ok (A.least x xs)
  | .max, x :: xs => .ok (A.greatest x xs)
  | .pow, _ | .root, _ | .min, _ | .max, _ => .error (.arity b args.length)
  | _, [x] => A.apply b x
  | _, _ => .error (.arity b args.length)

end Arithmetic

/-- A function of the user. -/
structure UserFunction where
  params : List String
  body : Expr

/-- Calls of user functions that may stand inside each other. -/
def maxCalls : Nat := 256

/-- The outcome, with the span of the node it belongs to. -/
def locate {α : Type} (span : Span) : Except Cause α → Except Error α
  | .ok a => .ok a
  | .error cause => .error ⟨cause, span⟩

section Walk

variable {α : Type} (A : Arithmetic α) (values : Bindings α)
  (invoke : Span → String → List α → Except Error α)

mutual
/-- The value of an expression, in which `invoke` calls functions that are not built in. -/
def walk : Expr → Except Error α
  | .number value raw span => locate span (A.number value raw >>= A.accept)
  | .constant c span => locate span (A.accept (A.constant c))
  | .free name span =>
    match values.get? name with
    | some x => locate span (A.accept (A.fetch x))
    | none => .error ⟨.undefinedVariable name, span⟩
  | .unary op e span => do
    let x ← walk e
    locate span (A.unary op x >>= A.accept)
  | .binary op l r span => do
    let x ← walk l
    let y ← walk r
    locate span (A.binary op x y >>= A.accept)
  | .call name args span => do
    let xs ← walkList args
    match Builtin.ofName? name with
    | some b => locate span (A.builtin b xs >>= A.accept)
    | none => do
      let x ← invoke span name xs
      locate span (A.accept x)
  | .matrix _ span => .error ⟨.matrix, span⟩
  | .complex _ _ span => .error ⟨.complex, span⟩
def walkList : List Expr → Except Error (List α)
  | [] => .ok []
  | e :: es => do
    let x ← walk e
    let xs ← walkList es
    return x :: xs
end

end Walk

/-- The value of an expression, with `calls` more calls of user functions inside each other. -/
def evaluateWithin {α : Type} (A : Arithmetic α) (functions : Bindings UserFunction) :
    Nat → Bindings α → Expr → Except Error α
  | 0, values => walk A values fun span name _ =>
    match functions.get? name with
    | none => .error ⟨.unknownFunction name, span⟩
    | some _ => .error ⟨.callDepth name, span⟩
  | calls + 1, values => walk A values fun span name args =>
    match functions.get? name with
    | none => .error ⟨.unknownFunction name, span⟩
    | some f => evaluateWithin A functions calls (values.setAll A.zero f.params args) f.body

/-- What an expression is evaluated in. -/
structure Context (α : Type) where
  values : Bindings α
  functions : Bindings UserFunction
  angle : AngleUnit
  precision : Nat

namespace Context

variable {α : Type}

def defaultPrecision : Nat := 15

/-- The context without variables and functions, in radians. -/
def empty : Context α := ⟨.empty, .empty, .radians, defaultPrecision⟩

def setVariable (ctx : Context α) (name : String) (value : α) : Context α :=
  { ctx with values := ctx.values.set name value }

/-- The context with one more function. Its body may call the functions before it, and itself. -/
def define (ctx : Context α) (name : String) (params : List String) (body : String) :
    Except ParseError (Context α) := do
  let body ← Expr.parse (ctx.functions.names ++ [name]) body
  return { ctx with functions := ctx.functions.set name ⟨params, body⟩ }

def evaluateIn (ctx : Context α) (A : Arithmetic α) (e : Expr) : Except Error α :=
  evaluateWithin A ctx.functions maxCalls ctx.values e

/-- The value of the expression that a text writes, in which the context's functions may be called. -/
def evaluateTextIn (ctx : Context α) (A : Arithmetic α) (text : String) : Except TextError α :=
  match Expr.parse ctx.functions.names text with
  | .error error => .error (.parse error)
  | .ok e =>
    match ctx.evaluateIn A e with
    | .error error => .error (.evaluation error)
    | .ok x => .ok x

end Context
end Calculator.Evaluation
