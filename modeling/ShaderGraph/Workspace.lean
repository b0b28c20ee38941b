import ShaderGraph.Compile

/-!
# Workspaces

A workspace is a graph under construction together with its node types and settings. Edits give a
new workspace, and every question about the graph is answered for the workspace as it is.
-/

namespace ShaderGraph

/-- A graph under construction. -/
structure Workspace where
  graph : Graph
  catalog : Catalog
  settings : Settings

/-- Changes the first node with an id. -/
def editFirst (id : String) (edit : Node → Node) : List Node → List Node
  | [] => []
  | n :: rest => if n.id = id then edit n :: rest else n :: editFirst id edit rest

namespace Workspace

/-- A workspace without contents. -/
def new (id name : String) : Workspace := ⟨Graph.bare id name, Catalog.empty, {}⟩

variable (w : Workspace)

/-! ## Edits -/

/-- Adds a node type. -/
def register (t : NodeType) : Workspace := { w with catalog := w.catalog.register t }

/-- Adds a node without settings. -/
def addNode (id type : String) : Workspace :=
  { w with graph := { w.graph with nodes := w.graph.nodes ++ [Node.bare id type] } }

/-- Changes the first node with an id, if there is one. -/
def editNode (id : String) (edit : Node → Node) : Workspace :=
  { w with graph := { w.graph with nodes := editFirst id edit w.graph.nodes } }

/-- Sets a parameter of a node. -/
def setParam (nodeId name : String) (value : Param.Value) : Workspace :=
  w.editNode nodeId (·.withParam name value)

/-- Sets the rule by which connected values join a parameter of a node. -/
def setCombine (nodeId name : String) (combine : Param.Combine) : Workspace :=
  w.editNode nodeId (·.withCombine name combine)

/-- Adds a connection. -/
def connect (c : Connection) : Workspace :=
  { w with graph := { w.graph with connections := w.graph.connections ++ [c] } }

/-- Adds a lane. -/
def addLane (lane : Lane Float) : Workspace :=
  { w with graph := { w.graph with lanes := w.graph.lanes ++ [lane] } }

/-- Removes the nodes with an id. Their connections stay. -/
def removeNode (id : String) : Workspace :=
  { w with graph := { w.graph with nodes := w.graph.nodes.filter (·.id != id) } }

/-- Removes the connections with an id. -/
def disconnect (id : String) : Workspace :=
  { w with graph := { w.graph with connections := w.graph.connections.filter (·.id != id) } }

/-- Removes the lanes with an id. -/
def removeLane (id : String) : Workspace :=
  { w with graph := { w.graph with lanes := w.graph.lanes.filter (·.id != id) } }

/-- Takes settings, if they admit a program. -/
def configure (settings : Settings) : Except SettingsError Workspace :=
  match settings.check with
  | .ok settings => .ok { w with settings }
  | .error error => .error error

/-! ## Questions -/

/-- The problems in the structure of the graph. -/
def structureProblems : List Problem := checkStructure w.catalog w.settings w.graph

/-- The problems with the types of connections. -/
def typeProblems : List Problem := checkTypes w.catalog w.settings w.graph

/-- The order of execution. -/
def order : Except Failure (List String) :=
  match w.graph.executionOrder w.settings with
  | .ok order => .ok order
  | .error remaining => .error (.cycle remaining)

/-- The nodes that a change reaches. -/
def affected (changed : List String) : List String := w.graph.affected w.settings changed

/-- The uniforms on offer. -/
def uniforms : List Uniform :=
  let table := UniformTable.ofGraph w.catalog w.settings w.graph
  table.used table.names

/-- The program. -/
def compile : Except Failure Compilation := ShaderGraph.compile w.catalog w.settings w.graph

/-- The value of an automated parameter at a time, within the bounds that its type sets. -/
def evaluate (nodeId name : String) (time : Float) : Option Float :=
  (w.graph.lane? nodeId name).map fun lane =>
    let param := (w.graph.nodeType? w.catalog nodeId).bind (·.param? name)
    lane.evaluate time (param.bind (·.min)) (param.bind (·.max))

end Workspace

end ShaderGraph
