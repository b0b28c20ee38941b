import ShaderGraph.Emit.Library

/-!
# Distance functions

A marching node samples its distance input many times, at points that it chooses itself. What is
connected there is therefore written once more, as a function of the point: the nodes that it
depends on are inlined into the function, each once and after those that it reads, with local
variables for their outputs.

Inlining follows connections up to the depth of the settings. It starts a node at most once, also
where connections run in a circle.
-/

namespace ShaderGraph

/-- A local variable of a distance function. -/
structure Local where
  type : ValueType
  symbol : String
deriving DecidableEq

/-- The line that declares a local variable. -/
def Local.line (l : Local) : String :=
  "    " ++ l.type.name ++ " " ++ l.symbol ++ " = " ++ l.type.zero ++ ";"

/-- Code in braces, one level down in a function. -/
def braced (code : String) : String := "    \x7b\n" ++ Text.indent 8 code ++ "\n    \x7d"

/-- The code of an inlined node. -/
structure Block where
  nodeId : String
  code : String
deriving DecidableEq

/-- A distance function while it is written. -/
structure Inlining where
  /-- The nodes begun so far. -/
  begun : List String := []
  locals : List Local := []
  /-- The nodes finished so far, in order. -/
  blocks : List Block := []
  warnings : List Warning := []

namespace Inlining

/-- Takes a warned result into account. -/
def note {α : Type} (s : Inlining) (result : Warned α) : α × Inlining :=
  (result.value, { s with warnings := s.warnings ++ result.warnings })

/-- Zero in place of a value, with a warning. -/
def giveUp (s : Inlining) (target : ValueType) (warning : Warning) : String × Inlining :=
  (target.zero, { s with warnings := s.warnings ++ [warning] })

/-- The body of the function that returns a value. -/
def body (s : Inlining) (result : String) : String :=
  let blocks := s.blocks.filter fun b => !Text.isBlankText b.code
  "\n".intercalate
    (s.locals.map Local.line ++ blocks.map (fun b => braced b.code)
      ++ ["    return " ++ result ++ ";"])

end Inlining

/-- How the value of a connection is found, as a value of a type. -/
abbrev Follow := Connection → ValueType → Inlining → String × Inlining

/-- The local variables of a node. -/
def localsOf (n : TypedNode) : List Local :=
  n.type.outputs.map fun port => ⟨port.type, Symbol.inlined n.node.id port.name⟩

/-- The local variables of a node by its outputs. -/
def inlinedOutputs (n : TypedNode) : Dict String :=
  Dict.ofList (n.type.outputs.map fun port => (port.name, Symbol.inlined n.node.id port.name))

namespace Plan

variable (plan : Plan) (lib : Library)

/-- The coordinates inside a distance function. -/
def marchCoordinates : Coordinates :=
  ⟨plan.settings.marchPoint, plan.settings.marchPoint ++ ".xy"⟩

/-- The value of an input of an inlined node. -/
def inlinedInput (follow : Follow) (n : Node) (params : Dict Resolved) (port : Port)
    (s : Inlining) : String × Inlining :=
  match plan.graph.portConnection? n.id port.name with
  | some c => follow c port.type s
  | none => s.note (fallback n port params (some plan.marchCoordinates))

/-- The values of inputs of an inlined node, one after another. -/
def inlinedInputs (follow : Follow) (n : Node) (params : Dict Resolved) :
    List Port → Inlining → List (String × String) × Inlining
  | [], s => ([], s)
  | port :: rest, s =>
    let (value, s) := plan.inlinedInput follow n params port s
    let (values, s) := inlinedInputs follow n params rest s
    ((port.name, value) :: values, s)

/-- The code of an inlined node, given the values of its inputs. -/
def inlinedCode (n : TypedNode) (params : Dict Resolved) (inputs : Dict String) :
    Warned String := do
  let bindings : Bindings :=
    { nodeId := n.node.id, inputs, outputs := inlinedOutputs n, params := expressions params,
      coordinates := some plan.marchCoordinates }
  let code ← bindings.fill (Template.parse n.type.mainCode)
  return (lib.renamingOf n.node.id).rename code

/-- Writes a node and what it depends on, unless it was begun before. -/
def inlineNode (follow : Follow) (n : TypedNode) (s : Inlining) : Inlining :=
  if s.begun.contains n.node.id then s
  else
    let s := { s with begun := s.begun ++ [n.node.id] }
    let (params, s) := s.note (plan.resolveAll n)
    let (inputs, s) := plan.inlinedInputs follow n.node params n.type.inputs s
    let s := { s with locals := s.locals ++ localsOf n }
    let (code, s) := s.note (plan.inlinedCode lib n params (Dict.ofList inputs))
    { s with blocks := s.blocks ++ [⟨n.node.id, code⟩] }

/-- The value of an output of an inlined node. -/
def inlinedOutput (follow : Follow) (c : Connection) (target : ValueType) (s : Inlining) :
    String × Inlining :=
  match plan.typedNode? c.sourceId with
  | none => s.giveUp target (.unknownOutput c.sourceId c.sourcePort)
  | some n =>
    match n.type.output? c.sourcePort with
    | none => s.giveUp target (.unknownOutput c.sourceId c.sourcePort)
    | some port =>
      (Glsl.convert (Symbol.inlined c.sourceId c.sourcePort) port.type target,
        plan.inlineNode lib follow n s)

/-- The value of a virtual source. -/
def virtualValue (sourceId : String) (target : ValueType) : String :=
  match plan.uniforms.virtual? sourceId with
  | some symbol => Glsl.convert symbol .float target
  | none => target.zero

/-- The value that a connection carries, with that many levels of nodes left to inline. -/
def inlineValue : Nat → Follow
  | 0, c, target, s =>
    if plan.isVirtual c.sourceId then (plan.virtualValue c.sourceId target, s)
    else s.giveUp target (.tooDeep plan.settings.inlineDepth c.sourceId)
  | levels + 1, c, target, s =>
    if plan.isVirtual c.sourceId then (plan.virtualValue c.sourceId target, s)
    else plan.inlinedOutput lib (inlineValue levels) c target s

/-- The function of the sampled point for what a connection carries. -/
def marchFunction (name : String) (c : Connection) : Warned String :=
  let (result, s) := plan.inlineValue lib plan.settings.inlineDepth c .float {}
  ⟨"float " ++ name ++ "(vec3 " ++ plan.settings.marchPoint ++ ") \x7b\n" ++ s.body result
    ++ "\n\x7d", s.warnings⟩

end Plan

/-- What a marching node calls for the distance and for the displacement. -/
structure MarchCalls where
  distance : Option String := none
  displacement : Option String := none
deriving DecidableEq

/-- The distance functions of a program, with the calls of the marching nodes. -/
structure Marching where
  functions : List String := []
  calls : Dict MarchCalls := ∅

/-- Whether nodes of a type march: their code asks for the distance. -/
def NodeType.marches (t : NodeType) : Bool := (Template.parse t.mainCode).uses .distance

namespace Plan

variable (plan : Plan) (lib : Library)

/-- The call of a function at the sampled point. -/
def marchCall (name : String) : String := Glsl.applied name plan.settings.marchPoint

/-- The function for what is connected to an input, with its call. -/
def marchInput (n : Node) (port name : String) : Warned (List String × Option String) :=
  match plan.graph.portConnection? n.id port with
  | some c => do return ([← plan.marchFunction lib name c], some (plan.marchCall name))
  | none => pure ([], none)

/-- Adds the functions of a marching node. -/
def addMarcher (m : Marching) (n : Node) : Warned Marching := do
  let (distanceCode, distance) ←
    plan.marchInput lib n plan.settings.distancePort (Symbol.distance n.id)
  if distance.isNone then Warned.warn (.noDistance n.id)
  let (displacementCode, displacement) ←
    plan.marchInput lib n plan.settings.displacementPort (Symbol.displacement n.id)
  return {
    functions := m.functions ++ distanceCode ++ displacementCode
    calls := m.calls.insert n.id ⟨distance, displacement⟩ }

/-- Adds the functions of marching nodes one after another. -/
def addMarchers : List Node → Marching → Warned Marching
  | [], m => pure m
  | n :: rest, m => do addMarchers rest (← plan.addMarcher lib m n)

/-- The marching nodes, in the order of execution. -/
def marchers : List Node := (plan.nodes.filter (·.type.marches)).map (·.node)

/-- The distance functions of the program. -/
def marching : Warned Marching := plan.addMarchers lib plan.marchers {}

end Plan

end ShaderGraph
