/-! The unit that trigonometric functions read angles in, and their inverses give them in. -/
namespace Calculator

/-- A unit of angles. -/
inductive AngleUnit
  | degrees | radians
deriving DecidableEq, Repr

namespace AngleUnit

def all : List AngleUnit := [degrees, radians]

def name : AngleUnit → String
  | degrees => "degrees"
  | radians => "radians"

end AngleUnit
end Calculator
