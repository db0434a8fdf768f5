import Calculator.Evaluation.Precise
/-! Evaluating one text with options of its own, for callers that want a double and its text. -/
namespace Calculator.Evaluation

/-- How a text is evaluated. -/
structure Options where
  precision : Nat := Context.defaultPrecision
  angle : AngleUnit := .radians
  precise : Bool := false
  values : Option (Bindings Float) := none

/-- A text to evaluate. -/
structure Request where
  expression : String
  options : Options := {}

/-- A value and its text. -/
structure Result where
  /-- The value, if it is a finite double. -/
  value : Option Float
  formatted : String

def finite? (x : Float) : Option Float :=
  if x.isFinite then some x else none

namespace Options

/-- The context that the options describe, in which `set` binds a variable. -/
def context {α : Type} (options : Options) (set : Context α → String → Float → Context α) : Context α :=
  (options.values.getD .empty).entries.foldl (fun ctx (name, x) => set ctx name x)
    { Context.empty with angle := options.angle, precision := options.precision }

end Options

def fixedResult (options : Options) (x : Float) : Result :=
  ⟨finite? x, Notation.ofFloat x options.precision⟩

def preciseResult (options : Options) (d : Decimal) : Result :=
  ⟨finite? d.toFloat, d.printSignificant options.precision⟩

/-- The result of evaluating a text with options. Without context, only the built-ins may be called. -/
def Request.run (request : Request) : Except TextError Result :=
  let options := request.options
  if options.precise then
    (Precise.evaluateText (options.context Precise.setFloat) request.expression).map (preciseResult options)
  else
    (Fixed.evaluateText (options.context Context.setVariable) request.expression).map (fixedResult options)

end Calculator.Evaluation
