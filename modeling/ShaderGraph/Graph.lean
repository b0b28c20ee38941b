import ShaderGraph.Dict
import ShaderGraph.Param
import ShaderGraph.Timeline.Lane

/-!
# Graphs

A graph is a list of nodes, the connections between them and the automation of their parameters.
Nothing is assumed of it: ids may repeat or be missing, connections may dangle or set no target.
Every look-up therefore says which of several it takes, and that is the first.
-/

namespace ShaderGraph

/-- A node of a graph, with its own settings where they differ from those of its type. -/
structure Node where
  id : String
  type : String
  params : Dict Param.Value
  combines : Dict Param.Combine

namespace Node

/-- A node without settings. -/
def bare (id type : String) : Node := ⟨id, type, ∅, ∅⟩

/-- The node with a parameter set. -/
def withParam (n : Node) (name : String) (value : Param.Value) : Node :=
  { n with params := n.params.insert name value }

/-- The node with its own rule for a connected value. -/
def withCombine (n : Node) (name : String) (combine : Param.Combine) : Node :=
  { n with combines := n.combines.insert name combine }

/-- What a parameter is set to, on the node or by default. -/
def setting (n : Node) (name : String) (param : Param) : Param.Value :=
  (n.params.find? name).getD param.default

/-- The number that a parameter has: the node's, else the default, else zero. A setting that is not
a number is passed over. -/
def number (n : Node) (name : String) (param : Param) : Float :=
  (((n.params.find? name).bind (·.number?)).or param.default.number?).getD 0.0

end Node

/-- Where a connection ends. -/
inductive Target where
  | port (name : String)
  | parameter (name : String)
deriving DecidableEq

/-- A connection from an output to an input or to a parameter. -/
structure Connection where
  id : String
  sourceId : String
  sourcePort : String
  targetId : String
  targetPort : Option String
  targetParameter : Option String
deriving DecidableEq

namespace Connection

/-- A connection between two ends given as node and name. -/
def between (id : String) (source : String × String) (targetId : String) (target : Target) :
    Connection :=
  match target with
  | .port name => ⟨id, source.1, source.2, targetId, some name, none⟩
  | .parameter name => ⟨id, source.1, source.2, targetId, none, some name⟩

/-- The end of a connection, none where it sets both a port and a parameter or neither. -/
def target? (c : Connection) : Option Target :=
  match c.targetPort, c.targetParameter with
  | some name, none => some (.port name)
  | none, some name => some (.parameter name)
  | _, _ => none

/-- Whether a connection ends at a place of a node. -/
def endsAt (c : Connection) (nodeId : String) (target : Target) : Bool :=
  c.targetId == nodeId && c.target? == some target

end Connection

/-- A graph as it is drawn. -/
structure Graph where
  id : String
  name : String
  version : String
  nodes : List Node
  connections : List Connection
  lanes : List (Lane Float)

namespace Graph

/-- The version of the graph format. -/
def formatVersion : String := "1.0"

/-- A graph without contents. -/
def bare (id name : String) : Graph := ⟨id, name, formatVersion, [], [], []⟩

/-- The first node with an id. -/
def node? (g : Graph) (id : String) : Option Node := g.nodes.find? (·.id == id)

/-- The first lane of a parameter. -/
def lane? (g : Graph) (nodeId paramName : String) : Option (Lane Float) :=
  g.lanes.find? fun lane => lane.nodeId == nodeId && lane.paramName == paramName

/-- The first connection into an input. -/
def portConnection? (g : Graph) (nodeId port : String) : Option Connection :=
  g.connections.find? (·.endsAt nodeId (.port port))

/-- The connections into a parameter. -/
def paramConnections (g : Graph) (nodeId param : String) : List Connection :=
  g.connections.filter (·.endsAt nodeId (.parameter param))

/-- Whether anything is connected to an output of a node. -/
def hasOutgoing (g : Graph) (nodeId : String) : Bool :=
  g.connections.any (·.sourceId == nodeId)

end Graph

end ShaderGraph
