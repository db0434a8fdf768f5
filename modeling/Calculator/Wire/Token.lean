import Calculator.Token
import Calculator.Wire
/-! Tokens as JSON. -/
namespace Calculator

def Token.Kind.all : List Token.Kind :=
  [number, operator, function, variableName, constant, lparen, rparen, comma]

def Token.Kind.name : Token.Kind → String
  | number => "number"
  | operator => "operator"
  | function => "function"
  | variableName => "variable"
  | constant => "constant"
  | lparen => "lparen"
  | rparen => "rparen"
  | comma => "comma"

namespace Wire

instance tokenKind : Wire Token.Kind where
  encode k := .string k.name
  decode? := ofNames? Token.Kind.all Token.Kind.name

/-- The flag of a product that is not written is sent only if it is set. -/
instance token : Wire Token where
  encode t := .ofMembers <|
    [("type", encode t.kind), ("value", encode t.text), ("position", encode t.position)] ++
      (if t.implicit then [("implicit", encode true)] else [])
  decode? v := do
    let fields ← Fields.of? 4 v
    return {
      kind := ← fields.required 0 "type"
      text := ← fields.required 1 "value"
      position := ← fields.required 2 "position"
      implicit := ← fields.withDefault 3 "implicit" false }

end Wire
end Calculator
