/-! The version of the library. -/
namespace Calculator

def version : String := "0.1.0"

end Calculator
