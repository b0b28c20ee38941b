import ShaderGraph.Check.Problem
import ShaderGraph.NodeType
import ShaderGraph.Settings
import ShaderGraph.Text.Blank

/-!
# Checking the structure of a graph

The header, the nodes, the connections and the lanes are each walked once, in this order, and every
problem is reported where it is met. What is remembered along the way are the ids seen so far, the
inputs already taken and the parameters already automated.
-/

namespace ShaderGraph

variable (catalog : Catalog) (settings : Settings)

/-- A problem where a test holds. -/
def reportIf (test : Bool) (problem : Problem) : List Problem :=
  if test then [problem] else []

/-- Checks id, name and version. -/
def checkHeader (g : Graph) : List Problem :=
  reportIf (Text.isBlankText g.id) .graphWithoutId
    ++ reportIf (Text.isBlankText g.name) .graphWithoutName
    ++ reportIf (g.version != Graph.formatVersion) (.otherVersion g.version)

/-- Checks a node with an id, given the ids before it. -/
def checkNode (seen : List String) (n : Node) : List Problem :=
  reportIf (seen.contains n.id) (.nodeRepeated n.id)
    ++ reportIf (settings.isVirtual n.id) (.nodeReserved n.id settings.virtualMark)
    ++ if Text.isBlankText n.type then [.nodeWithoutType n.id]
       else reportIf (catalog.find? n.type).isNone (.nodeOfUnknownType n.id n.type)

/-- Checks the nodes, given the ids before them. A node with a blank id is not looked at further. -/
def checkNodes (seen : List String) : List Node → List Problem
  | [] => []
  | n :: rest =>
    if Text.isBlankText n.id then .nodeWithoutId :: checkNodes seen rest
    else checkNode catalog settings seen n ++ checkNodes (n.id :: seen) rest

/-- The ids that connections may name: those that are not blank. -/
def knownIds (g : Graph) : List String :=
  (g.nodes.map (·.id)).filter fun id => !Text.isBlankText id

/-- What stands for an input among the inputs that are taken. -/
def inputKey (nodeId : String) : Target → String
  | .port name => nodeId ++ ":port:" ++ name
  | .parameter name => nodeId ++ ":param:" ++ name

/-- Checks what a connection says by itself, given the connection ids before it. -/
def checkEnds (known seen : List String) (c : Connection) : List Problem :=
  (if Text.isBlankText c.id then [.connectionWithoutId]
    else reportIf (seen.contains c.id) (.connectionRepeated c.id))
    ++ reportIf (Text.isBlankText c.sourcePort) (.connectionWithoutSourcePort c.id)
    ++ reportIf (!settings.isVirtual c.sourceId && !known.contains c.sourceId)
        (.sourceMissing c.id c.sourceId)
    ++ if settings.isVirtual c.targetId then [.targetVirtual c.id c.targetId]
       else reportIf (!known.contains c.targetId) (.targetMissing c.id c.targetId)

/-- Checks the connections. `taken` holds the inputs that are taken with the connection that took
each last. -/
def checkConnections (known seen : List String) (taken : List (String × String)) :
    List Connection → List Problem
  | [] => []
  | c :: rest =>
    let seen' := if Text.isBlankText c.id then seen else c.id :: seen
    checkEnds settings known seen c ++
      match c.target? with
      | some target =>
        let key := inputKey c.targetId target
        (match taken.lookup key with
          | some first => [.inputShared first c.id c.targetId]
          | none => [])
          ++ checkConnections known seen' ((key, c.id) :: taken) rest
      | none =>
        (if c.targetPort.isSome then .bothTargets c.id else .noTarget c.id)
          :: checkConnections known seen' taken rest

/-- Whether a key lies on the unit interval, where the keys of a region belong. -/
def isOnUnit (key : Key Float) : Bool := 0.0 ≤ key.time && key.time ≤ 1.0

/-- Checks a region at a place of its lane. -/
def checkRegion (laneId : String) (region : Region Float) (index : Nat) : List Problem :=
  reportIf (!region.hasDuration) (.regionWithoutDuration laneId index)
    ++ reportIf (!region.curve.keys.all isOnUnit) (.regionWithStrayKeys laneId index)

/-- Whether a type has a float parameter of a name. -/
def hasFloat (t : NodeType) (name : String) : Bool :=
  (t.param? name).any (·.kind == .float)

/-- Checks the lanes, given the parameters automated before them. -/
def checkLanes (g : Graph) (bound : List (String × String)) : List (Lane Float) → List Problem
  | [] => []
  | lane :: rest =>
    match g.node? lane.nodeId with
    | none => .laneWithoutNode lane.id lane.nodeId :: checkLanes g bound rest
    | some node =>
      reportIf ((catalog.find? node.type).any fun t => !hasFloat t lane.paramName)
          (.laneOfNoFloat lane.id lane.nodeId lane.paramName)
        ++ reportIf (bound.contains (lane.nodeId, lane.paramName))
            (.laneRepeated lane.nodeId lane.paramName)
        ++ lane.regions.zipIdx.flatMap (fun r => checkRegion lane.id r.1 r.2)
        ++ checkLanes g ((lane.nodeId, lane.paramName) :: bound) rest

/-- The problems in the structure of a graph. -/
def checkStructure (g : Graph) : List Problem :=
  checkHeader g
    ++ checkNodes catalog settings [] g.nodes
    ++ checkConnections settings (knownIds g) [] [] g.connections
    ++ checkLanes catalog g [] g.lanes

end ShaderGraph
