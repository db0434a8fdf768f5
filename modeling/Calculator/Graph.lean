import Calculator.Batch
/-!
The points of a curve. Samples are taken at equal steps; where the curve is not defined, or jumps too far
between two samples, a point without ordinate breaks it.
-/
namespace Calculator.Graph

def defaultPoints : Nat := 500

/-- A curve to sample. -/
structure Request where
  /-- The text of the ordinate, in which `x` is the abscissa. -/
  expression : String
  xMin : Float
  xMax : Float
  numPoints : Nat := defaultPoints
  values : Option (Bindings Float) := none
  /-- The unit of angles, if it is not radians. -/
  angle : Option AngleUnit := none

/-- A point, without ordinate where the curve breaks. -/
structure Point where
  x : Float
  y : Option Float

/-- The points of a curve. -/
structure Result where
  points : List Point
  hasDiscontinuities : Bool

/-- The percentage of the samples that are taken. -/
structure Progress where
  progress : Float

/-- Why a curve is not sampled. -/
inductive Failure
  | tooManyPoints (count : Nat)
  | parse (error : ParseError)
deriving DecidableEq, Repr

def maxPoints : Nat := 100000

def Failure.message : Failure → String
  | tooManyPoints count => s!"numPoints must be at most {maxPoints}, got {count}"
  | parse error => error.message

/-- The farthest that the ordinates of neighbouring samples may lie apart. -/
def maxJump : Float := 1000

/-- The points of a curve so far, and what the next sample is compared with. -/
structure Sweep where
  points : Array Point
  /-- The ordinate of the sample before, if it has one. -/
  previous : Option Float
  hasDiscontinuities : Bool

namespace Sweep

def start : Sweep := ⟨#[], none, false⟩

/-- Whether an ordinate lies too far from the one before. -/
def jumps (sweep : Sweep) (y : Float) : Bool :=
  match sweep.previous with
  | some p => maxJump < (y - p).abs
  | none => false

/-- Adds a sample, and a break in front of it if the curve jumps. Behind a sample without ordinate there is nothing to
compare the next one with. -/
def add (sweep : Sweep) (sample : Point) : Sweep :=
  match sample.y with
  | some y =>
    if sweep.jumps y then ⟨(sweep.points.push ⟨sample.x, none⟩).push sample, some y, true⟩
    else ⟨sweep.points.push sample, some y, sweep.hasDiscontinuities⟩
  | none => ⟨sweep.points.push sample, none, true⟩

end Sweep

/-- How often progress is reported, roughly. -/
def reportCount : Nat := 20

namespace Request

/-- The number of steps, at least one. -/
def steps (request : Request) : Nat := max request.numPoints 1

def abscissa (request : Request) (i : Nat) : Float :=
  let step := (request.xMax - request.xMin) / Float.ofNat request.steps
  request.xMin + Float.ofNat i * step

def context (request : Request) : Evaluation.Context Float :=
  (request.values.getD .empty).entries.foldl (fun ctx (name, x) => ctx.setVariable name x)
    { Evaluation.Context.empty with angle := request.angle.getD .radians }

/-- The sample at an abscissa; it has an ordinate if that is finite. -/
def sample (request : Request) (e : Expr) (x : Float) : Point :=
  match Evaluation.Fixed.evaluate (request.context.setVariable "x" x) e with
  | .ok y => ⟨x, Evaluation.finite? y⟩
  | .error _ => ⟨x, none⟩

def samples (request : Request) (e : Expr) : List Point :=
  (List.range (request.steps + 1)).map fun i => request.sample e (request.abscissa i)

def curve (request : Request) (e : Expr) : Result :=
  let sweep := (request.samples e).foldl Sweep.add .start
  ⟨sweep.points.toList, sweep.hasDiscontinuities⟩

def run (request : Request) : Except Failure Result :=
  if maxPoints < request.numPoints then .error (.tooManyPoints request.numPoints)
  else
    match Expr.parse [] request.expression with
    | .error error => .error (.parse error)
    | .ok e => .ok (request.curve e)

def reports (request : Request) : List Progress :=
  let every := max (request.steps / reportCount) 1
  (List.range (request.steps + 1)).filterMap fun i =>
    if i % every = 0 then some ⟨Batch.percentage i request.steps⟩ else none

end Request
end Calculator.Graph
