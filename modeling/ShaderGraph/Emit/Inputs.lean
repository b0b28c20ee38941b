import ShaderGraph.Emit.Bindings
import ShaderGraph.Emit.Parameters

/-!
# Values of inputs

An input takes what is connected to it, converted to its type. Without a usable connection it takes
its fallback: an expression, else parameters as its components, else zero.
-/

namespace ShaderGraph

namespace Plan

variable (plan : Plan)

/-- The value of a connected input, none where the source cannot be read. -/
def connectedInput (c : Connection) (port : Port) : Warned (Option String) :=
  if plan.isVirtual c.sourceId then
    pure ((plan.uniforms.virtual? c.sourceId).map fun symbol =>
      Glsl.convert symbol .float port.type)
  else
    let symbol := Symbol.output c.sourceId c.sourcePort
    if plan.declares symbol then
      let type := (plan.outputType? c.sourceId c.sourcePort).getD .float
      pure (some (Glsl.convert symbol type port.type))
    else do
      Warned.warn (.undeclaredForInput c.id symbol c.targetId port.name)
      return none

end Plan

/-- The value of a parameter as a component of an input. -/
def componentOf (nodeId : String) (port : Port) (params : Dict Resolved) (name : String) :
    Warned String :=
  match params.find? name with
  | some resolved => pure resolved.expr
  | none => do
    Warned.warn (.unknownFallback nodeId port.name name)
    return neutral

/-- The value of an input that nothing usable is connected to. -/
def fallback (n : Node) (port : Port) (params : Dict Resolved)
    (coordinates : Option Coordinates) : Warned String :=
  match port.fallback with
  | some code =>
    let bindings : Bindings := { nodeId := n.id, params := expressions params, coordinates }
    bindings.fill (Template.parse code)
  | none =>
    if port.fallbackParams.isEmpty then pure port.type.zero
    else do
      let parts ← Warned.each (componentOf n.id port params) port.fallbackParams
      return Glsl.assemble parts port.type

namespace Plan

variable (plan : Plan)

/-- The value that is connected to an input. -/
def connected (n : Node) (port : Port) : Warned (Option String) :=
  match plan.graph.portConnection? n.id port.name with
  | some c => plan.connectedInput c port
  | none => pure none

/-- The value of an input. -/
def input (n : Node) (params : Dict Resolved) (coordinates : Option Coordinates) (port : Port) :
    Warned String := do
  match ← plan.connected n port with
  | some value => return value
  | none => fallback n port params coordinates

/-- The values of the inputs of a node. -/
def inputs (n : TypedNode) (params : Dict Resolved) (coordinates : Option Coordinates) :
    Warned (Dict String) := do
  let values ← Warned.each (plan.input n.node params coordinates) n.type.inputs
  return Dict.ofList ((n.type.inputs.map (·.name)).zip values)

end Plan

/-- The variables of the outputs of a node. -/
def outputs (n : TypedNode) : Dict String :=
  Dict.ofList (n.type.outputs.map fun port => (port.name, Symbol.output n.node.id port.name))

end ShaderGraph
