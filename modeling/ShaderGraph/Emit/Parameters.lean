import ShaderGraph.Glsl.Conversion
import ShaderGraph.Glsl.Literal
import ShaderGraph.Plan
import ShaderGraph.Warning

/-!
# Values of parameters

A float parameter takes its value from its automation, else from a connection, else from its
uniform, else from a literal. Among several connections counts the one whose source is executed
latest, and sources that are executed after the node do not count. Other parameters are literals or
symbols.
-/

namespace ShaderGraph

/-- Where the value of a parameter comes from. -/
inductive Origin where
  | automation
  | connection
  | uniform
  | literal
  | array
  | text
deriving DecidableEq, Repr

/-- The expression for a parameter. -/
structure Resolved where
  expr : String
  origin : Origin
deriving DecidableEq

/-- The configured value joined with a connected one. -/
def Param.Combine.join (configured connected : String) : Param.Combine → String
  | .override => connected
  | .add => "(" ++ configured ++ " + " ++ connected ++ ")"
  | .subtract => "(" ++ configured ++ " - " ++ connected ++ ")"
  | .multiply => "(" ++ configured ++ " * " ++ connected ++ ")"

/-- The first of the elements with the highest rank. Elements without a rank are passed over. -/
def highest? {α : Type} (rank : α → Option Nat) (items : List α) : Option α :=
  (items.foldl climb none).map (·.2)
where
  climb (best : Option (Nat × α)) (a : α) : Option (Nat × α) :=
    match rank a, best with
    | none, _ => best
    | some r, none => some (r, a)
    | some r, some b => if b.1 < r then some (r, a) else some b

namespace Plan

variable (plan : Plan) (n : Node) (name : String) (param : Param)

/-- The call that gives an automated parameter. -/
def automation? : Option String :=
  (plan.graph.lane? n.id name).map fun lane =>
    Glsl.applied (Symbol.evaluator lane.id) Symbol.time

/-- The value that a parameter has without its automation and connections. -/
def settled : Resolved :=
  match plan.uniforms.param? n.id name with
  | some symbol => ⟨symbol, .uniform⟩
  | none => ⟨Glsl.floatLiteral (n.number name param), .literal⟩

/-- How late a source is, for a node with a place in the order. Virtual sources come before all
nodes, and a source that is not executed before the node has no rank. -/
def rank? (consumer : Nat) (c : Connection) : Option Nat :=
  if plan.isVirtual c.sourceId then some 0
  else match plan.index? c.sourceId with
    | some i => if i < consumer then some (i + 1) else none
    | none => none

/-- The connection that decides a parameter. -/
def winner? : Option Connection :=
  (plan.index? n.id).bind fun consumer =>
    highest? (plan.rank? consumer) (plan.graph.paramConnections n.id name)

/-- The value that a connection brings to a parameter. -/
def connectedParam (c : Connection) : Warned String :=
  if plan.isVirtual c.sourceId then
    match plan.uniforms.virtual? c.sourceId with
    | some symbol => pure symbol
    | none => do
      Warned.warn (.noVirtualUniform c.sourceId)
      return neutral
  else
    let symbol := Symbol.output c.sourceId c.sourcePort
    if plan.declares symbol then
      pure (Glsl.toFloat symbol ((plan.outputType? c.sourceId c.sourcePort).getD .float))
    else do
      Warned.warn (.undeclaredForParameter c.id n.id symbol)
      return neutral

/-- The rule by which a connected value joins a parameter: the node's own, else that of its type. -/
def combineOf : Param.Combine := (n.combines.find? name).getD param.combine

/-- The value of a float parameter. -/
def resolveFloat : Warned Resolved :=
  match plan.automation? n name with
  | some call => pure ⟨call, .automation⟩
  | none =>
    match plan.winner? n name with
    | some c => do
      let connected ← plan.connectedParam n c
      return ⟨(combineOf n name param).join (plan.settled n name param).expr connected, .connection⟩
    | none => pure (plan.settled n name param)

/-- The text that a text parameter puts into the code. -/
def textOf : Param.Value → String
  | .text content => content
  | .number value => Glsl.floatLiteral value
  | .numbers _ => ""

/-- The value of a parameter. -/
def resolve : Warned Resolved :=
  match param.kind with
  | .float => plan.resolveFloat n name param
  | .int => pure ⟨Glsl.intLiteral (n.number name param), .literal⟩
  | .string => pure ⟨textOf (n.setting name param), .text⟩
  | .array => pure ⟨Symbol.array n.id name, .array⟩

/-- The values of all parameters of a node. -/
def resolveAll (n : TypedNode) : Warned (Dict Resolved) :=
  let resolved := n.type.params.map (plan.resolve n.node)
  ⟨resolved.map fun _ r => r.value, resolved.values.flatMap (·.warnings)⟩

end Plan

/-- The expressions of resolved parameters. -/
def expressions (params : Dict Resolved) : Dict String := params.map fun _ r => r.expr

end ShaderGraph
