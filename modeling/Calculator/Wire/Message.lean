import Calculator.Json.Printer
import Calculator.Message
import Calculator.Wire
/-! Requests and responses as JSON. -/
namespace Calculator

namespace Wire

instance requestKind : Wire RequestKind where
  encode k := .string k.name
  decode? := ofNames? RequestKind.all RequestKind.name

instance responseKind : Wire ResponseKind where
  encode k := .string k.name
  decode? := ofNames? ResponseKind.all ResponseKind.name

instance errorCode : Wire ErrorCode where
  encode c := .string c.name
  decode? := ofNames? ErrorCode.all ErrorCode.name

instance request : Wire Request where
  encode r := .ofMembers [("id", encode r.id), ("type", encode r.kind), ("payload", r.payload)]
  decode? v := do
    let fields ← Fields.of? 3 v
    return {
      id := ← fields.required 0 "id"
      kind := ← fields.required 1 "type"
      payload := ← fields.withDefault 2 "payload" Json.null }

instance response : Wire Response where
  encode r := .ofMembers [("id", encode r.id), ("type", encode r.kind), ("payload", r.payload)]
  decode? v := do
    let fields ← Fields.of? 3 v
    return {
      id := ← fields.required 0 "id"
      kind := ← fields.required 1 "type"
      payload := ← fields.withDefault 2 "payload" Json.null }

instance errorPayload : Wire ErrorPayload where
  encode p := .ofMembers (("message", encode p.message) :: optionalMember "code" p.code)
  decode? v := do
    let fields ← Fields.of? 2 v
    return { message := ← fields.required 0 "message", code := ← fields.withDefault 1 "code" none }

end Wire

/-- The error that a payload brings: a text is its wording, and so is JSON that is no error payload. -/
def ErrorPayload.ofJson (v : Json) : ErrorPayload :=
  match v with
  | .string message => { message }
  | _ => (decode? v).getD { message := v.print }

end Calculator
