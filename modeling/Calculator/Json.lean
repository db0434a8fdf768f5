import Calculator.Binary64.Basic
import Calculator.Bindings
/-!
JSON values. An object's members are sorted by key, and each key occurs once. A number is an integer if its
text has neither point nor exponent and it fits in 64 bits, and a double otherwise.
-/
namespace Calculator

/-- A JSON value. -/
inductive Json
  | null
  | bool (value : Bool)
  | int (value : Int)
  | float (value : Float)
  | string (value : String)
  | array (items : List Json)
  | object (members : List (String × Json))
deriving Inhabited

namespace Json

/-- The object with these members; of members with one key the last stays. -/
def ofMembers (members : List (String × Json)) : Json :=
  object (Bindings.ofList members).entries

def get? (key : String) : Json → Option Json
  | object members => members.lookup key
  | _ => none

def minInt : Int := -9223372036854775808

def maxInt : Int := 18446744073709551615

/-- The double, or null if it is not finite. -/
def ofFloat (x : Float) : Json :=
  if x.isFinite then float x else null

def ofNat (n : Nat) : Json := int n

end Json
end Calculator
