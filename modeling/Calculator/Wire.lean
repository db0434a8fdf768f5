import Calculator.Binary64.Rounding
import Calculator.Json
/-!
Values that travel as JSON. A record is an object, or the array of its fields in order; unknown members are
ignored, and trailing fields of an array may be missing if they have a default.
-/
namespace Calculator

/-- A type whose values travel as JSON. -/
class Wire (α : Type) where
  encode : α → Json
  decode? : Json → Option α

export Wire (encode decode?)

namespace Wire

instance json : Wire Json where
  encode v := v
  decode? := some

instance string : Wire String where
  encode := .string
  decode?
    | .string s => some s
    | _ => none

instance bool : Wire Bool where
  encode := .bool
  decode?
    | .bool b => some b
    | _ => none

def floatOfInt (n : Int) : Float :=
  Binary64.ofDecimal (decide (n < 0)) n.natAbs 0

/-- A double that is not finite is sent as null, and null is not read. -/
instance float : Wire Float where
  encode := .ofFloat
  decode?
    | .float x => some x
    | .int n => some (floatOfInt n)
    | _ => none

def natBelow? (bound : Nat) : Json → Option Nat
  | .int n => if 0 ≤ n ∧ n.toNat < bound then some n.toNat else none
  | _ => none

/-- Counts and positions are below this bound: they have 64 bits. -/
def countBound : Nat := 18446744073709551616

/-- Counts and positions have 64 bits. -/
instance nat : Wire Nat where
  encode := .ofNat
  decode? := natBelow? countBound

instance list {α : Type} [Wire α] : Wire (List α) where
  encode xs := .array (xs.map encode)
  decode?
    | .array items => items.mapM decode?
    | _ => none

/-- What is absent travels as null. -/
instance option {α : Type} [Wire α] : Wire (Option α) where
  encode
    | some x => encode x
    | none => .null
  decode?
    | .null => some none
    | v => (decode? v).map some

/-- Values by name are the members of an object. -/
instance bindings {α : Type} [Wire α] : Wire (Bindings α) where
  encode b := .object (b.entries.map fun (k, x) => (k, encode x))
  decode?
    | .object members => do
      let entries ← members.mapM fun (k, v) => (decode? v).map (k, ·)
      return .ofList entries
    | _ => none

/-- One of finitely many values by its name; an object with the name as its only key may hold null. -/
def ofNames? {α : Type} (values : List α) (name : α → String) : Json → Option α
  | .string s => values.find? fun x => name x == s
  | .object [(s, .null)] => values.find? fun x => name x == s
  | _ => none

/-- The fields of a record. -/
inductive Fields
  | named (members : List (String × Json))
  | ordered (items : List Json)

namespace Fields

def of? (count : Nat) : Json → Option Fields
  | .object members => some (named members)
  | .array items => if items.length ≤ count then some (ordered items) else none
  | _ => none

def at? (place : Nat) (name : String) : Fields → Option Json
  | named members => members.lookup name
  | ordered items => items[place]?

def required {α : Type} [Wire α] (fields : Fields) (place : Nat) (name : String) : Option α :=
  (fields.at? place name).bind decode?

def withDefault {α : Type} [Wire α] (fields : Fields) (place : Nat) (name : String) (default : α) : Option α :=
  match fields.at? place name with
  | some v => decode? v
  | none => some default

/-- A field that may be null, and may be missing where fields have names. -/
def nullable {α : Type} [Wire α] (fields : Fields) (place : Nat) (name : String) : Option (Option α) :=
  match fields, fields.at? place name with
  | _, some v => decode? v
  | named _, none => some none
  | ordered _, none => none

end Fields

/-- A member that is sent only if there is a value. -/
def optionalMember {α : Type} [Wire α] (name : String) (value : Option α) : List (String × Json) :=
  (value.map fun x => (name, encode x)).toList

end Wire
end Calculator
