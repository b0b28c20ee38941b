import ShaderGraph.Graph
import ShaderGraph.NodeType
import ShaderGraph.Settings
import ShaderGraph.Uniform

/-!
# Plans

A plan is all that the parts of a program are written from: the graph with its types and settings,
the order of execution, the uniforms on offer and the variables that the program declares. Nothing
ties these to each other; an order may repeat ids or name unknown ones.
-/

namespace ShaderGraph

/-- What the parts of a program are written from. -/
structure Plan where
  graph : Graph
  catalog : Catalog
  settings : Settings
  order : List String
  uniforms : UniformTable
  /-- The variables that the program declares. -/
  declared : List String

/-- A node together with its type. -/
structure TypedNode where
  node : Node
  type : NodeType

/-- The place where an element stands last. -/
def lastIndex? (a : String) : List String → Option Nat
  | [] => none
  | b :: rest =>
    match lastIndex? a rest with
    | some i => some (i + 1)
    | none => if b = a then some 0 else none

namespace Plan

variable (plan : Plan)

/-- The first node with an id, if its type is known. -/
def typedNode? (id : String) : Option TypedNode :=
  (plan.graph.node? id).bind fun n => (plan.catalog.find? n.type).map fun t => ⟨n, t⟩

/-- The nodes of known type in the order of execution. -/
def nodes : List TypedNode := plan.order.filterMap plan.typedNode?

/-- When a node is executed: the last place of its id in the order. -/
def index? (id : String) : Option Nat := lastIndex? id plan.order

/-- Whether an id names a virtual source. -/
def isVirtual (id : String) : Bool := plan.settings.isVirtual id

/-- The type of an output. -/
def outputType? (nodeId port : String) : Option ValueType :=
  (plan.typedNode? nodeId).bind fun n => (n.type.output? port).map (·.type)

/-- Whether the program declares a variable. -/
def declares (symbol : String) : Bool := plan.declared.contains symbol

end Plan

end ShaderGraph
