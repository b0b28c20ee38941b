import ShaderGraph.Graph

/-!
# Problems of a graph

What can be wrong with a graph, short of having no order of execution. Problems do not stop a
compilation; they are reported beside the program that it gives.
-/

namespace ShaderGraph

/-- A problem of a graph. -/
inductive Problem where
  | graphWithoutId
  | graphWithoutName
  | otherVersion (version : String)
  | nodeWithoutId
  | nodeRepeated (id : String)
  | nodeReserved (id mark : String)
  | nodeWithoutType (id : String)
  | nodeOfUnknownType (id type : String)
  | connectionWithoutId
  | connectionRepeated (id : String)
  | connectionWithoutSourcePort (id : String)
  | sourceMissing (id sourceId : String)
  | targetVirtual (id targetId : String)
  | targetMissing (id targetId : String)
  | bothTargets (id : String)
  | noTarget (id : String)
  | inputShared (first second targetId : String)
  | laneWithoutNode (id nodeId : String)
  | laneOfNoFloat (id nodeId paramName : String)
  | laneRepeated (nodeId paramName : String)
  | regionWithoutDuration (id : String) (index : Nat)
  | regionWithStrayKeys (id : String) (index : Nat)
  | noOutput (id sourceId port : String)
  | noInput (id targetId port : String)
  | cannotConnect (id : String) (sourceType : ValueType) (sourceId sourcePort : String)
      (targetType : ValueType) (targetId targetPort : String)
  | noParameter (id targetId param : String)
  | parameterOfNoFloat (id targetId param : String)
deriving DecidableEq

/-- The wording of a problem. -/
def Problem.message : Problem → String
  | .graphWithoutId => "Graph is missing required field 'id'"
  | .graphWithoutName => "Graph is missing required field 'name'"
  | .otherVersion version =>
    "Unsupported graph version '" ++ version ++ "' (expected '" ++ Graph.formatVersion ++ "')"
  | .nodeWithoutId => "Node is missing required field 'id'"
  | .nodeRepeated id => "Duplicate node id '" ++ id ++ "'"
  | .nodeReserved id mark =>
    "Node id '" ++ id ++ "' uses the reserved virtual source prefix '" ++ mark ++ "'"
  | .nodeWithoutType id => "Node '" ++ id ++ "' is missing required field 'type'"
  | .nodeOfUnknownType id type => "Node '" ++ id ++ "' has unknown type '" ++ type ++ "'"
  | .connectionWithoutId => "Connection is missing required field 'id'"
  | .connectionRepeated id => "Duplicate connection id '" ++ id ++ "'"
  | .connectionWithoutSourcePort id =>
    "Connection '" ++ id ++ "' is missing required field 'sourcePort'"
  | .sourceMissing id sourceId =>
    "Connection '" ++ id ++ "' references missing source node '" ++ sourceId ++ "'"
  | .targetVirtual id targetId =>
    "Connection '" ++ id ++ "' targets virtual source '" ++ targetId
      ++ "'; virtual sources may only be sources"
  | .targetMissing id targetId =>
    "Connection '" ++ id ++ "' references missing target node '" ++ targetId ++ "'"
  | .bothTargets id => "Connection '" ++ id ++ "' sets both targetPort and targetParameter"
  | .noTarget id => "Connection '" ++ id ++ "' sets neither targetPort nor targetParameter"
  | .inputShared first second targetId =>
    "Connections '" ++ first ++ "' and '" ++ second ++ "' target the same input on node '"
      ++ targetId ++ "'"
  | .laneWithoutNode id nodeId =>
    "Automation lane '" ++ id ++ "' references missing node '" ++ nodeId ++ "'"
  | .laneOfNoFloat id nodeId paramName =>
    "Automation lane '" ++ id ++ "' targets '" ++ nodeId ++ "." ++ paramName
      ++ "', which is not a float parameter"
  | .laneRepeated nodeId paramName =>
    "More than one automation lane is bound to '" ++ nodeId ++ "." ++ paramName ++ "'"
  | .regionWithoutDuration id index =>
    "Automation lane '" ++ id ++ "' region " ++ index.repr ++ " has non-positive duration"
  | .regionWithStrayKeys id index =>
    "Automation lane '" ++ id ++ "' region " ++ index.repr ++ " has keyframes outside [0, 1]"
  | .noOutput id sourceId port =>
    "Connection '" ++ id ++ "': node '" ++ sourceId ++ "' has no output port '" ++ port ++ "'"
  | .noInput id targetId port =>
    "Connection '" ++ id ++ "': node '" ++ targetId ++ "' has no input port '" ++ port ++ "'"
  | .cannotConnect id sourceType sourceId sourcePort targetType targetId targetPort =>
    "Connection '" ++ id ++ "': cannot connect " ++ sourceType.name
      ++ " output '" ++ sourceId ++ "." ++ sourcePort ++ "' to " ++ targetType.name
      ++ " input '" ++ targetId ++ "." ++ targetPort ++ "'"
  | .noParameter id targetId param =>
    "Connection '" ++ id ++ "': node '" ++ targetId ++ "' has no parameter '" ++ param ++ "'"
  | .parameterOfNoFloat id targetId param =>
    "Connection '" ++ id ++ "': parameter '" ++ targetId ++ "." ++ param
      ++ "' is not a float parameter"

end ShaderGraph
