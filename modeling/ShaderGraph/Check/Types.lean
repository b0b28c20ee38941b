import ShaderGraph.Check.Problem
import ShaderGraph.NodeType
import ShaderGraph.Settings

/-!
# Checking the types of connections

A connection into a port has to come from an output that widens to it; one into a parameter has to
find a float there, and may come from any type. Connections whose ends are not known are left to the
check of the structure.
-/

namespace ShaderGraph

variable (catalog : Catalog) (settings : Settings)

/-- The type of the first node with an id. -/
def Graph.nodeType? (g : Graph) (id : String) : Option NodeType :=
  (g.node? id).bind fun n => catalog.find? n.type

/-- The type of the value that a connection carries: none where the source is not known, a problem
where it has no such output. -/
def sourceType? (g : Graph) (c : Connection) : Option (Except Problem ValueType) :=
  if settings.isVirtual c.sourceId then some (.ok .float)
  else (g.nodeType? catalog c.sourceId).map fun t =>
    match t.output? c.sourcePort with
    | some port => .ok port.type
    | none => .error (.noOutput c.id c.sourceId c.sourcePort)

/-- Checks a value of a type against the end of its connection. -/
def checkTarget (c : Connection) (sourceType : ValueType) (t : NodeType) : Target → List Problem
  | .port name =>
    match t.input? name with
    | none => [.noInput c.id c.targetId name]
    | some port =>
      if sourceType.widensTo port.type then []
      else [.cannotConnect c.id sourceType c.sourceId c.sourcePort port.type c.targetId name]
  | .parameter name =>
    match t.param? name with
    | none => [.noParameter c.id c.targetId name]
    | some param => if param.kind = .float then [] else [.parameterOfNoFloat c.id c.targetId name]

/-- Checks the types of one connection. -/
def checkConnectionTypes (g : Graph) (c : Connection) : List Problem :=
  match c.target?, g.nodeType? catalog c.targetId, sourceType? catalog settings g c with
  | some _, some _, some (.error problem) => [problem]
  | some target, some t, some (.ok sourceType) => checkTarget c sourceType t target
  | _, _, _ => []

/-- The problems with the types of connections. -/
def checkTypes (g : Graph) : List Problem :=
  g.connections.flatMap (checkConnectionTypes catalog settings g)

end ShaderGraph
