import ShaderGraph.Emit.Inputs

/-!
# The color of the picture

A program ends in one node. Nodes of the output category come first, those that nothing reads
before the others, the latest in the order. Without any the latest node with an output for a color
is taken, and without that the picture is black.
-/

namespace ShaderGraph

/-- What a program shows. -/
structure FinalColor where
  nodeId : Option String
  expr : String
deriving DecidableEq

/-- Black. -/
def black : String := ValueType.vec3.zero

/-- The first output for a color. -/
def NodeType.colorOutput? (t : NodeType) : Option Port := t.outputs.find? (·.type.isColor)

/-- The input that a color is read from: the first for a color, else the first. -/
def NodeType.colorInput? (t : NodeType) : Option Port :=
  (t.inputs.find? (·.type.isColor)).or t.inputs.head?

/-- The color at an output. -/
def outputColor (n : Node) (port : Port) : String :=
  Glsl.toColor (Symbol.output n.id port.name) port.type

namespace Plan

variable (plan : Plan)

/-- The nodes of the output category, in the order of execution. -/
def terminals : List TypedNode :=
  plan.nodes.filter (·.type.category == plan.settings.outputCategory)

/-- The node of the output category that the program ends in. -/
def terminal? : Option TypedNode :=
  let latest := plan.terminals.reverse
  (latest.find? fun n => !plan.graph.hasOutgoing n.node.id).or latest.head?

/-- The color at an input of a node. -/
def inputColor (n : TypedNode) (port : Port) : Warned String := do
  match ← plan.connected n.node port with
  | some value => return Glsl.toColor value port.type
  | none =>
    let params ← plan.resolveAll n
    return Glsl.toColor (← fallback n.node port params (some .main)) port.type

/-- The color that a node of the output category shows. -/
def terminalColor (n : TypedNode) : Warned String :=
  match n.type.colorOutput?, n.type.colorInput? with
  | some port, _ => pure (outputColor n.node port)
  | none, some port => plan.inputColor n port
  | none, none => pure black

/-- The latest output for a color, with its node. -/
def latestColor? : Option (Node × Port) :=
  (plan.nodes.filterMap fun n => n.type.colorOutput?.map fun port => (n.node, port)).getLast?

/-- The color without nodes of the output category. -/
def colorWithoutTerminal : Warned FinalColor :=
  match plan.latestColor? with
  | some (n, port) => pure ⟨some n.id, outputColor n port⟩
  | none => do
    Warned.warn .noColor
    return ⟨none, black⟩

/-- What the program shows. -/
def finalColor : Warned FinalColor := do
  let count := plan.terminals.length
  if 1 < count then Warned.warn (.severalTerminals count)
  match plan.terminal? with
  | some n => return ⟨some n.node.id, ← plan.terminalColor n⟩
  | none => plan.colorWithoutTerminal

end Plan

end ShaderGraph
