import ShaderGraph.Timeline.Curve

/-!
# Automation lanes

A lane drives one parameter of one node over time. It is a list of regions, each a curve placed on
the timeline, played once or repeated from its start on. The first region that covers a time
decides, its value kept within the bounds of the parameter. Outside every region the lane rests at
the lower bound, or at zero where there is none.
-/

namespace ShaderGraph

variable {α : Type}

/-- A curve placed on the timeline. -/
structure Region (α : Type) where
  start : α
  duration : α
  loops : Bool
  curve : Curve α
deriving DecidableEq

/-- The automation of one parameter. -/
structure Lane (α : Type) where
  id : String
  nodeId : String
  paramName : String
  regions : List (Region α)
deriving DecidableEq

variable [Scalar α]

open Scalar (ofNat lt le upper lower remainder)

namespace Region

/-- Whether a region takes any time at all. -/
def hasDuration (r : Region α) : Bool := lt (ofNat 0) r.duration

/-- How far through its region a time is, none where the region does not cover it. -/
def localTime (r : Region α) (time : α) : Option α :=
  let elapsed := time - r.start
  if !r.hasDuration || lt elapsed (ofNat 0) then none
  else if r.loops then some (remainder elapsed r.duration / r.duration)
  else if le r.duration elapsed then none
  else some (elapsed / r.duration)

end Region

/-- A number kept within the bounds that are set. -/
def clampWithin (min max : Option α) (value : α) : α :=
  let value := match min with | some lo => upper value lo | none => value
  match max with | some hi => lower value hi | none => value

namespace Lane

/-- Where a lane rests outside its regions. -/
def rest (min : Option α) : α := min.getD (ofNat 0)

/-- The value that the first covering region of a list gives. -/
def evaluateRegions (min max : Option α) (time : α) : List (Region α) → α
  | [] => rest min
  | region :: more =>
    match region.localTime time with
    | some t => clampWithin min max ((region.curve.sample t).getD (rest min))
    | none => evaluateRegions min max time more

/-- The value of a lane at a time. -/
def evaluate (lane : Lane α) (time : α) (min max : Option α) : α :=
  evaluateRegions min max time lane.regions

end Lane

end ShaderGraph
