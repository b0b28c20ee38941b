import ShaderGraph.Dict
import ShaderGraph.Symbol
import ShaderGraph.Warning

/-!
# Bindings

Bindings say what the placeholders of one node stand for. Filling a template puts these texts into
the holes. A hole without a binding is filled with zero, and each such hole gives one warning.
-/

namespace ShaderGraph

/-- The symbols for the place that code computes at. -/
structure Coordinates where
  position : String
  uv : String
deriving DecidableEq

/-- The coordinates that the main function declares. -/
def Coordinates.main : Coordinates := ⟨Symbol.position, Symbol.uv⟩

/-- What the placeholders of a node stand for. -/
structure Bindings where
  nodeId : String
  inputs : Dict String := ∅
  outputs : Dict String := ∅
  params : Dict String := ∅
  /-- None for code outside every function, where there are no coordinates. -/
  coordinates : Option Coordinates := none
  distance : Option String := none
  displacement : Option String := none

namespace Bindings

variable (b : Bindings)

/-- The text that a placeholder is bound to. -/
def find? : Placeholder → Option String
  | .input port => b.inputs.find? port
  | .output port => b.outputs.find? port
  | .param name => b.params.find? name
  | .time => some Symbol.time
  | .resolution => some Symbol.resolution
  | .position => b.coordinates.map (·.position)
  | .uv => b.coordinates.map (·.uv)
  | .distance => b.distance
  | .displacement => b.displacement
  | .unknown _ => none

/-- The text for a placeholder. -/
def textFor (placeholder : Placeholder) : String :=
  (b.find? placeholder).getD placeholder.neutral

/-- What there is to say about a placeholder that is not bound. -/
def complaint (placeholder : Placeholder) : Warning :=
  match placeholder with
  | .position => .noCoordinate placeholder b.nodeId
  | .uv => .noCoordinate placeholder b.nodeId
  | _ => .unresolved placeholder b.nodeId

/-- The warning for a placeholder, if it is not bound. -/
def warning? (placeholder : Placeholder) : Option Warning :=
  match b.find? placeholder with
  | some _ => none
  | none => some (b.complaint placeholder)

/-- The text for a piece of a template. -/
def textOf : Piece → List Char
  | .code text => text
  | .hole placeholder => (b.textFor placeholder).toList

/-- A template with its holes filled. -/
def fill (t : Template) : Warned String :=
  ⟨String.ofList (t.flatMap b.textOf), t.placeholders.filterMap b.warning?⟩

end Bindings

end ShaderGraph
