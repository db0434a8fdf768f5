import Calculator.Builtin
import Calculator.Expr.Parser
/-! Why an evaluation fails, and where. -/
namespace Calculator

/-- The kind of a failure, for callers that do not read its wording. -/
inductive ErrorCode
  | divisionByZero | domain | overflow | factorialOfNegative
  | undefinedVariable | unknownConstant | unknownOperator | unknownFunction | notImplemented
deriving DecidableEq, Repr

namespace ErrorCode

def all : List ErrorCode :=
  [divisionByZero, domain, overflow, factorialOfNegative,
    undefinedVariable, unknownConstant, unknownOperator, unknownFunction, notImplemented]

def name : ErrorCode → String
  | divisionByZero => "CALC_DIV_ZERO"
  | domain => "CALC_DOMAIN"
  | overflow => "CALC_OVERFLOW"
  | factorialOfNegative => "CALC_FACTORIAL_NEG"
  | undefinedVariable => "EVAL_UNDEFINED_VAR"
  | unknownConstant => "EVAL_UNKNOWN_CONSTANT"
  | unknownOperator => "EVAL_UNKNOWN_OP"
  | unknownFunction => "PARSE_UNKNOWN_FUNCTION"
  | notImplemented => "EVAL_NOT_IMPLEMENTED"

def ofName? (text : String) : Option ErrorCode :=
  all.find? fun code => code.name == text

end ErrorCode

namespace Evaluation

/-- Why a node has no value. -/
inductive Cause
  | undefinedVariable (name : String)
  | unknownFunction (name : String)
  /-- Too many calls of user functions stand inside each other. -/
  | callDepth (name : String)
  | matrix
  | complex
  /-- A built-in is called with the wrong number of arguments. -/
  | arity (function : Builtin) (given : Nat)
  | divisionByZero
  | moduloByZero
  | zeroToNegative
  | fractionalPower
  | powerTooLarge
  /-- A result that is too large, or too close to zero. -/
  | resultTooLarge
  | logOfNonPositive (function : Builtin)
  | sqrtOfNegative
  | zerothRoot
  | evenRootOfNegative
  | factorialOfNegative
  | factorialOfFraction
  | factorialTooLarge
  /-- The gamma function at zero or a negative integer. -/
  | gammaPole
  | angleTooLarge (function : Builtin)
  | tangentPole
  /-- An argument outside of a function's domain. -/
  | argumentOutOfRange (function : Builtin)
  | acoshBelowOne
  | atanhFromOne
  /-- A literal outside of the range of decimal numbers. -/
  | numberOutOfRange (raw : String)
  | invalidNumber (raw : String)
deriving DecidableEq, Repr

namespace Cause

def code : Cause → ErrorCode
  | undefinedVariable _ => .undefinedVariable
  | unknownFunction _ => .unknownFunction
  | matrix | complex => .notImplemented
  | divisionByZero | moduloByZero | zeroToNegative => .divisionByZero
  | callDepth _ | powerTooLarge | resultTooLarge | factorialTooLarge | numberOutOfRange _ => .overflow
  | factorialOfNegative => .factorialOfNegative
  | arity .. | fractionalPower | logOfNonPositive _ | sqrtOfNegative | zerothRoot | evenRootOfNegative
  | factorialOfFraction | gammaPole | angleTooLarge _ | tangentPole | argumentOutOfRange _ | acoshBelowOne
  | atanhFromOne | invalidNumber _ => .domain

/-- The wording for a call with the wrong number of arguments. -/
def arityMessage (function : Builtin) (given : Nat) : String :=
  match function.arity with
  | .exactly n =>
    let plural := if n = 1 then "" else "s"
    s!"{function.name} expects {n} argument{plural}, got {given}"
  | .variadic => s!"{function.name} expects at least one argument"

def message : Cause → String
  | undefinedVariable name => s!"Undefined variable: {name}"
  | unknownFunction name => s!"Unknown function: {name}"
  | callDepth name => s!"Maximum call depth exceeded in {name}"
  | matrix => "Matrix evaluation is not implemented"
  | complex => "Complex evaluation is not implemented"
  | arity function given => arityMessage function given
  | divisionByZero => "Division by zero"
  | moduloByZero => "Modulo by zero"
  | zeroToNegative => "Zero raised to a negative power"
  | fractionalPower => "Negative base with fractional exponent"
  | powerTooLarge => "Power result too large"
  | resultTooLarge => "Result too large"
  | logOfNonPositive function => s!"{function.name} requires a positive argument"
  | sqrtOfNegative => "Square root of negative number"
  | zerothRoot => "Root index cannot be zero"
  | evenRootOfNegative => "Even root of negative number"
  | factorialOfNegative => "Factorial of negative number"
  | factorialOfFraction => "Factorial requires a non-negative integer"
  | factorialTooLarge => "Factorial result too large"
  | gammaPole => "Gamma function undefined for non-positive integers"
  | angleTooLarge function => s!"{function.name} argument too large"
  | tangentPole => "Tangent undefined at this angle"
  | argumentOutOfRange function => s!"{function.name} argument out of range"
  | acoshBelowOne => "acosh requires an argument of at least 1"
  | atanhFromOne => "atanh requires an argument between -1 and 1"
  | numberOutOfRange raw => s!"Number out of range: {raw}"
  | invalidNumber raw => s!"Invalid number: {raw}"

end Cause

/-- A failure and the characters of the node that has no value. -/
structure Error where
  cause : Cause
  span : Span
deriving DecidableEq, Repr

/-- Why a text has no value. -/
inductive TextError
  | parse (error : ParseError)
  | evaluation (error : Error)
deriving DecidableEq, Repr

def TextError.message : TextError → String
  | parse error => error.message
  | evaluation error => error.cause.message

def TextError.code? : TextError → Option ErrorCode
  | parse _ => none
  | evaluation error => some error.cause.code

end Evaluation
end Calculator
