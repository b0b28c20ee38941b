import ShaderGraph.Document.NodeTypes
import ShaderGraph.Graph

/-!
# Graphs as documents

Fields are written in order of declaration; a connection leaves out the target that it does not
set.
-/

namespace ShaderGraph

/-- Reads a key of a curve. -/
def Key.ofJson (json : Json) : Option (Key Float) := do
  let f ← Json.fields ["time", "value"] json
  return ⟨← f.required "time" Json.asFloat, ← f.required "value" Json.asFloat⟩

/-- The document of a key. -/
def Key.toJson (k : Key Float) : Json :=
  .record [("time", .ofFloat k.time), ("value", .ofFloat k.value)]

/-- Reads a curve. -/
def Curve.ofJson (json : Json) : Option (Curve Float) := do
  let f ← Json.fields ["interpolation", "keyframes"] json
  return {
    interpolation := ← f.withDefault "interpolation"
      (Json.asChoice Interpolation.all Interpolation.name) .linear
    keys := ← f.list "keyframes" Key.ofJson }

/-- The document of a curve. -/
def Curve.toJson (c : Curve Float) : Json :=
  .record [("interpolation", .ofText c.interpolation.name),
    ("keyframes", .array (c.keys.map Key.toJson))]

/-- Reads a region. -/
def Region.ofJson (json : Json) : Option (Region Float) := do
  let f ← Json.fields ["startTime", "duration", "loop", "curve"] json
  return {
    start := ← f.required "startTime" Json.asFloat
    duration := ← f.required "duration" Json.asFloat
    loops := ← f.withDefault "loop" Json.asBool false
    curve := ← f.required "curve" Curve.ofJson }

/-- The document of a region. -/
def Region.toJson (r : Region Float) : Json :=
  .record [("startTime", .ofFloat r.start), ("duration", .ofFloat r.duration),
    ("loop", .bool r.loops), ("curve", r.curve.toJson)]

/-- Reads a lane. -/
def Lane.ofJson (json : Json) : Option (Lane Float) := do
  let f ← Json.fields ["id", "nodeId", "paramName", "regions"] json
  return {
    id := ← f.required "id" Json.asText
    nodeId := ← f.required "nodeId" Json.asText
    paramName := ← f.required "paramName" Json.asText
    regions := ← f.list "regions" Region.ofJson }

/-- The document of a lane. -/
def Lane.toJson (l : Lane Float) : Json :=
  .record [("id", .ofText l.id), ("nodeId", .ofText l.nodeId), ("paramName", .ofText l.paramName),
    ("regions", .array (l.regions.map Region.toJson))]

/-- Reads a node. -/
def Node.ofJson (json : Json) : Option Node := do
  let f ← Json.fields ["id", "type", "params", "combinationModes"] json
  return {
    id := ← f.required "id" Json.asText
    type := ← f.required "type" Json.asText
    params := ← f.withDefault "params" (Json.asDict Param.Value.ofJson) ∅
    combines := ← f.withDefault "combinationModes" (Json.asDict Param.Combine.ofJson) ∅ }

/-- The document of a node. -/
def Node.toJson (n : Node) : Json :=
  .record [("id", .ofText n.id), ("type", .ofText n.type),
    ("params", n.params.toJson Param.Value.toJson),
    ("combinationModes", n.combines.toJson fun c => .ofText c.name)]

/-- Reads a connection. -/
def Connection.ofJson (json : Json) : Option Connection := do
  let f ← Json.fields
    ["id", "sourceNodeId", "sourcePort", "targetNodeId", "targetPort", "targetParameter"] json
  return {
    id := ← f.required "id" Json.asText
    sourceId := ← f.required "sourceNodeId" Json.asText
    sourcePort := ← f.required "sourcePort" Json.asText
    targetId := ← f.required "targetNodeId" Json.asText
    targetPort := ← f.optional "targetPort" Json.asText
    targetParameter := ← f.optional "targetParameter" Json.asText }

/-- The document of a connection. -/
def Connection.toJson (c : Connection) : Json :=
  .record ([("id", .ofText c.id), ("sourceNodeId", .ofText c.sourceId),
      ("sourcePort", .ofText c.sourcePort), ("targetNodeId", .ofText c.targetId)]
    ++ Json.optionalMember "targetPort" (c.targetPort.map Json.ofText)
    ++ Json.optionalMember "targetParameter" (c.targetParameter.map Json.ofText))

/-- Reads a graph. -/
def Graph.ofJson (json : Json) : Option Graph := do
  let f ← Json.fields ["id", "name", "version", "nodes", "connections", "automation"] json
  return {
    id := ← f.required "id" Json.asText
    name := ← f.required "name" Json.asText
    version := ← f.required "version" Json.asText
    nodes := ← f.list "nodes" Node.ofJson
    connections := ← f.list "connections" Connection.ofJson
    lanes := ← f.list "automation" Lane.ofJson }

/-- The document of a graph. -/
def Graph.toJson (g : Graph) : Json :=
  .record [("id", .ofText g.id), ("name", .ofText g.name), ("version", .ofText g.version),
    ("nodes", .array (g.nodes.map Node.toJson)),
    ("connections", .array (g.connections.map Connection.toJson)),
    ("automation", .array (g.lanes.map Lane.toJson))]

/-- Reads a graph from a text. -/
def Graph.parse? (text : String) : Option Graph := do
  Graph.ofJson (← Json.parse? text)

end ShaderGraph
