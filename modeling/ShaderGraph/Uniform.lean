import ShaderGraph.Distinct
import ShaderGraph.Graph
import ShaderGraph.NodeType
import ShaderGraph.Settings
import ShaderGraph.Symbol

/-!
# Uniforms

A uniform is a value that the host sets while the program runs. Every float parameter of a node has
one, unless the settings turn them off, and so has every virtual source. The table of a graph lists
those that a program may use; a program declares those that it does use.

Where a graph repeats an id, the first node that has a parameter stands for it.
-/

namespace ShaderGraph

/-- A value set by the host: its symbol, where it belongs, and what it is before it is set. -/
structure Uniform where
  name : String
  nodeId : String
  paramName : String
  type : ValueType
  defaultValue : Float
deriving DecidableEq

namespace Uniform

/-- The uniform of a parameter. -/
def ofParam (n : Node) (name : String) (param : Param) : Uniform :=
  ⟨Symbol.uniform n.id name, n.id, name, .float, n.number name param⟩

/-- The uniform of the virtual source of a connection. -/
def ofVirtual (settings : Settings) (c : Connection) : Uniform :=
  ⟨Symbol.virtualUniform settings.virtualMark c.sourceId, c.sourceId, c.sourcePort, .float, 0.0⟩

/-- What tells the uniforms of parameters apart. -/
def key (u : Uniform) : String × String := (u.nodeId, u.paramName)

/-- The order of uniforms by node, then by parameter. -/
def keyLe (a b : Uniform) : Bool :=
  a.nodeId < b.nodeId || (a.nodeId == b.nodeId && a.paramName ≤ b.paramName)

/-- The order of uniforms by their symbols. -/
def nameLe (a b : Uniform) : Bool := a.name ≤ b.name

end Uniform

/-- The uniforms that a graph offers, those of parameters and those of virtual sources, each in the
order of their keys. -/
structure UniformTable where
  params : List Uniform
  virtuals : List Uniform

namespace UniformTable

/-- The uniforms of the parameters of one node. -/
def ofNode (catalog : Catalog) (n : Node) : List Uniform :=
  match catalog.find? n.type with
  | none => []
  | some t =>
    (t.params.entries.filter fun e => e.2.kind == .float).map fun e => Uniform.ofParam n e.1 e.2

/-- The table of a graph. -/
def ofGraph (catalog : Catalog) (settings : Settings) (g : Graph) : UniformTable where
  params :=
    if settings.parameterUniforms then
      (distinctOn Uniform.key (g.nodes.flatMap (ofNode catalog))).mergeSort Uniform.keyLe
    else []
  virtuals :=
    let sources := g.connections.filter fun c => settings.isVirtual c.sourceId
    (distinctOn Uniform.nodeId (sources.map (Uniform.ofVirtual settings))).mergeSort Uniform.keyLe

variable (t : UniformTable)

/-- All uniforms. -/
def all : List Uniform := t.params ++ t.virtuals

/-- The symbols of all uniforms. -/
def names : List String := t.all.map (·.name)

/-- The symbol for a parameter. -/
def param? (nodeId param : String) : Option String :=
  (t.params.find? fun u => u.nodeId == nodeId && u.paramName == param).map (·.name)

/-- The symbol for a virtual source. -/
def virtual? (sourceId : String) : Option String :=
  (t.virtuals.find? (·.nodeId == sourceId)).map (·.name)

/-- The symbols for the parameters of a node. -/
def namesOf (nodeId : String) : List String :=
  (t.params.filter (·.nodeId == nodeId)).map (·.name)

/-- The uniforms whose symbols are used, in the order of the symbols, each symbol once. -/
def used (symbols : List String) : List Uniform :=
  distinctOn Uniform.name ((t.all.filter fun u => symbols.contains u.name).mergeSort Uniform.nameLe)

end UniformTable

end ShaderGraph
