import ShaderGraph.Distinct
import ShaderGraph.Glsl.Literal
import ShaderGraph.Glsl.Statement
import ShaderGraph.Plan
import ShaderGraph.Timeline.Lane
import ShaderGraph.Warning

/-!
# Evaluators

Every lane becomes a function of the time that computes what the lane gives. The regions are tried
in order, each with a test for the times that it covers; inside a region a chain of conditions finds
the segment of the curve.
-/

namespace ShaderGraph

open Glsl (Expr Test Stmt)

variable {α : Type} [Scalar α]

open Scalar (ofNat le)

/-- A function of the time. -/
structure Evaluator (α : Type) where
  name : String
  body : List (Stmt α)

namespace Evaluator

/-- The time on the timeline. -/
def time : Expr α := .variable "t"

/-- How far through the region the time is. -/
def progress : Expr α := .variable "localT"

/-- The value of the curve. -/
def current : Expr α := .variable "v"

/-- An expression kept within the bounds that are set. -/
def clamped (min max : Option α) (value : Expr α) : Expr α :=
  match min, max with
  | some lo, some hi => .clamp value (.literal lo) (.literal hi)
  | some lo, none => .max value (.literal lo)
  | none, some hi => .min value (.literal hi)
  | none, none => value

/-- How far through a segment the time is. -/
def share (g : Segment α) : Expr α := (progress - .literal g.start.time) / .literal g.span

/-- The cubic of a segment at `s`, with the square and the cube of `s` at hand. -/
def cubic (g : Segment α) : Expr α :=
  let number (n : Nat) : Expr α := .literal (ofNat n)
  let s : Expr α := .variable "s"
  let s2 : Expr α := .variable "s2"
  let s3 : Expr α := .variable "s3"
  (number 2 * s3 - number 3 * s2 + number 1) * .literal g.start.value
    + (s3 - number 2 * s2 + s) * .literal (g.startSlope * g.span)
    + (.literal (-ofNat 2) * s3 + number 3 * s2) * .literal g.stop.value
    + (s3 - s2) * .literal (g.stopSlope * g.span)

/-- The statements that compute the value on a segment. -/
def segmentBody (interpolation : Interpolation) (g : Segment α) : List (Stmt α) :=
  match interpolation with
  | .stepped => [.assign "v" (.literal g.start.value)]
  | .linear => [.assign "v" (.mix (.literal g.start.value) (.literal g.stop.value) (share g))]
  | .bezier =>
    [.declare "s" (share g),
     .declare "s2" (.variable "s" * .variable "s"),
     .declare "s3" (.variable "s2" * .variable "s"),
     .assign "v" (cubic g)]

/-- The conditions that find the segment of the time. Segments without length are left out. -/
def segmentChain (interpolation : Interpolation) : List (Segment α) → List (Stmt α)
  | [] => []
  | g :: rest =>
    if le g.span (ofNat 0) then segmentChain interpolation rest
    else [.choose (.less progress (.literal g.stop.time)) (segmentBody interpolation g)
      (segmentChain interpolation rest)]

/-- The statements that return the value of a curve. -/
def curveBody (min max : Option α) (curve : Curve α) : List (Stmt α) :=
  match curve.sortedKeys with
  | [] => [.give (clamped min max (.literal (Lane.rest min)))]
  | first :: rest =>
    [.declare "v" (.literal ((first :: rest).getLastD first).value),
     .choose (.atMost progress (.literal first.time)) [.assign "v" (.literal first.value)]
      (segmentChain curve.interpolation (segments (first :: rest))),
     .give (clamped min max current)]

/-- The test for the times that a region covers. -/
def regionTest (r : Region α) : Test α :=
  if r.loops then .atLeast time (.literal r.start)
  else .both (.atLeast time (.literal r.start)) (.less time (.literal (r.start + r.duration)))

/-- How far through its region the time is. -/
def regionTime (r : Region α) : Expr α :=
  let elapsed : Expr α := time - .literal r.start
  if r.loops then .mod elapsed (.literal r.duration) / .literal r.duration
  else elapsed / .literal r.duration

/-- The statement for a region. -/
def regionBlock (min max : Option α) (r : Region α) : Stmt α :=
  .choose (regionTest r) (.declare "localT" (regionTime r) :: curveBody min max r.curve) []

/-- The evaluator of a lane. -/
def ofLane (lane : Lane α) (min max : Option α) : Evaluator α where
  name := Symbol.evaluator lane.id
  body :=
    (lane.regions.filter (·.hasDuration)).map (regionBlock min max)
      ++ [.give (.literal (Lane.rest min))]

/-- What an evaluator gives at a time, none if it ends without a value. -/
def run (e : Evaluator α) (t : α) : Option α :=
  match Glsl.runAll (fun name => if name = "t" then t else ofNat 0) e.body with
  | .returned value => some value
  | .next _ => none

/-- The text of an evaluator, with literals written by `lit`. -/
def textBy {β : Type} (lit : β → String) (e : Evaluator β) : String :=
  "\n".intercalate (("float " ++ e.name ++ "(float t) \x7b")
    :: Glsl.linesOf lit "    " e.body ++ ["\x7d"])

/-- The text of an evaluator on doubles. -/
def text (e : Evaluator Float) : String := e.textBy Glsl.floatLiteral

end Evaluator

namespace Plan

variable (plan : Plan)

/-- The parameter that a lane drives. -/
def laneParam? (lane : Lane Float) : Option Param :=
  (plan.typedNode? lane.nodeId).bind fun n => n.type.param? lane.paramName

/-- The evaluator of a lane, within the bounds of its parameter. -/
def evaluator (lane : Lane Float) : Evaluator Float :=
  let param := plan.laneParam? lane
  Evaluator.ofLane lane (param.bind (·.min)) (param.bind (·.max))

/-- The name of the evaluator of a lane. -/
def evaluatorName (lane : Lane Float) : String := Symbol.evaluator lane.id

/-- The evaluators of the lanes. Of lanes whose evaluators would share a name only the first has
one. -/
def evaluators : Warned (List (Evaluator Float)) :=
  ⟨(distinctOn evaluatorName plan.graph.lanes).map plan.evaluator,
    (repeatedOn evaluatorName plan.graph.lanes).map fun lane =>
      .evaluatorRepeated lane.id (evaluatorName lane)⟩

end Plan

end ShaderGraph
