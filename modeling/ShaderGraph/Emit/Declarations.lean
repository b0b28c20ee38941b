import ShaderGraph.Glsl.Literal
import ShaderGraph.Plan
import ShaderGraph.Warning

/-!
# Declarations

A program declares a variable for every output of its nodes and for every array parameter. A
connection may read an output that no type has; then the variable is declared all the same, as a
float, so that what reads it stays valid. No variable is declared twice.
-/

namespace ShaderGraph

/-- A variable of the program. -/
inductive Declaration where
  | variable (type : ValueType) (symbol : String)
  | array (symbol : String) (values : List Float)
deriving DecidableEq

namespace Declaration

/-- The name of the variable. -/
def symbol : Declaration → String
  | .variable _ symbol => symbol
  | .array symbol _ => symbol

/-- The line that declares the variable. -/
def line : Declaration → String
  | .variable type symbol => type.name ++ " " ++ symbol ++ " = " ++ type.zero ++ ";"
  | .array symbol values =>
    let size := values.length.repr
    "float " ++ symbol ++ "[" ++ size ++ "] = float[" ++ size ++ "]("
      ++ ", ".intercalate (values.map Glsl.floatLiteral) ++ ");"

/-- The variables for the outputs of a node. -/
def ofOutputs (n : TypedNode) : List Declaration :=
  n.type.outputs.map fun port => .variable port.type (Symbol.output n.node.id port.name)

/-- The elements of an array parameter; there is always one. -/
def elements : Param.Value → List Float
  | .numbers (first :: rest) => first :: rest
  | _ => [0.0]

/-- The variables for the array parameters of a node. -/
def ofArrays (n : TypedNode) : List Declaration :=
  (n.type.params.entries.filter fun e => e.2.kind == .array).map fun e =>
    .array (Symbol.array n.node.id e.1) (elements (n.node.setting e.1 e.2))

/-- The variables of a node. -/
def ofNode (n : TypedNode) : List Declaration := ofOutputs n ++ ofArrays n

end Declaration

namespace Plan

variable (plan : Plan)

/-- The variables of the nodes, each once. -/
def ownDeclarations : List Declaration :=
  distinctOn Declaration.symbol (plan.nodes.flatMap Declaration.ofNode)

/-- The variable that a connection reads. -/
def sourceSymbol (c : Connection) : String := Symbol.output c.sourceId c.sourcePort

/-- Whether a connection reads an output of a node of the graph. -/
def readsNode (c : Connection) : Bool :=
  !plan.isVirtual c.sourceId && (plan.graph.node? c.sourceId).isSome

/-- The connections, one for each variable, that read what no node declares. -/
def undeclaredReads : List Connection :=
  let own := plan.ownDeclarations.map Declaration.symbol
  distinctOn sourceSymbol
    (plan.graph.connections.filter fun c => plan.readsNode c && !own.contains (sourceSymbol c))

/-- The variables of the program. -/
def declarations : Warned (List Declaration) :=
  let reads := plan.undeclaredReads
  ⟨plan.ownDeclarations ++ reads.map fun c => .variable .float (sourceSymbol c),
    reads.map fun c => .declaredForConnection c.id (sourceSymbol c)⟩

end Plan

end ShaderGraph
