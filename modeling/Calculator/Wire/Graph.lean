import Calculator.Graph
import Calculator.Wire.Evaluation
/-! Requests to sample curves, their points and their progress, as JSON. -/
namespace Calculator.Wire

instance graphRequest : Wire Graph.Request where
  encode r := .ofMembers <|
    [("expression", encode r.expression), ("xMin", encode r.xMin), ("xMax", encode r.xMax),
      ("numPoints", encode r.numPoints)] ++
      optionalMember "variables" r.values ++ optionalMember "angleMode" r.angle
  decode? v := do
    let fields ← Fields.of? 6 v
    return {
      expression := ← fields.required 0 "expression"
      xMin := ← fields.required 1 "xMin"
      xMax := ← fields.required 2 "xMax"
      numPoints := ← fields.withDefault 3 "numPoints" Graph.defaultPoints
      values := ← fields.withDefault 4 "variables" none
      angle := ← fields.withDefault 5 "angleMode" none }

instance graphPoint : Wire Graph.Point where
  encode p := .ofMembers [("x", encode p.x), ("y", encode p.y)]
  decode? v := do
    let fields ← Fields.of? 2 v
    return { x := ← fields.required 0 "x", y := ← fields.nullable 1 "y" }

instance graphResult : Wire Graph.Result where
  encode r := .ofMembers [("points", encode r.points), ("hasDiscontinuities", encode r.hasDiscontinuities)]
  decode? v := do
    let fields ← Fields.of? 2 v
    return {
      points := ← fields.required 0 "points"
      hasDiscontinuities := ← fields.required 1 "hasDiscontinuities" }

instance graphProgress : Wire Graph.Progress where
  encode p := .ofMembers [("progress", encode p.progress)]
  decode? v := do
    let fields ← Fields.of? 1 v
    return ⟨← fields.required 0 "progress"⟩

end Calculator.Wire
