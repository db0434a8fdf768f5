/-! The named constants. -/
namespace Calculator

/-- A named constant. -/
inductive Constant
  | pi | e | phi | tau
deriving DecidableEq, Repr

namespace Constant

def all : List Constant := [pi, e, phi, tau]

/-- The canonical spelling, in lower case. -/
def name : Constant → String
  | pi => "pi"
  | e => "e"
  | phi => "phi"
  | tau => "tau"

/-- The constant of this name; ASCII case does not matter. -/
def ofName? (text : String) : Option Constant :=
  all.find? fun c => c.name == text.toLower

def toFloat : Constant → Float
  | pi => .ofBits 0x400921FB54442D18
  | e => .ofBits 0x4005BF0A8B145769
  | phi => .ofBits 0x3FF9E3779B97F4A8
  | tau => .ofBits 0x401921FB54442D18

end Constant
end Calculator
