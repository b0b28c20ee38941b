import ShaderGraph.Dict
import ShaderGraph.Param

/-!
# Node types

A node type lists its ports and parameters and holds the code that its nodes contribute: a library
of functions and the statements of one node, both as templates. A catalog looks types up by id.
-/

namespace ShaderGraph

/-- An input or output of a node type. An input that nothing is connected to takes the fallback
expression, else the parameters named as its components, else zero. -/
structure Port where
  name : String
  type : ValueType
  fallback : Option String
  fallbackParams : List String
deriving DecidableEq

/-- A port without fallbacks. -/
def Port.plain (name : String) (type : ValueType) : Port := ⟨name, type, none, []⟩

/-- A kind of node. -/
structure NodeType where
  id : String
  category : String
  inputs : List Port
  outputs : List Port
  params : Dict Param
  functionCode : Option String
  mainCode : String

namespace NodeType

/-- A type with nothing but its id and category. -/
def bare (id category : String) : NodeType := ⟨id, category, [], [], ∅, none, ""⟩

/-- The type with one more input. -/
def withInput (t : NodeType) (port : Port) : NodeType := { t with inputs := t.inputs ++ [port] }

/-- The type with one more output. -/
def withOutput (t : NodeType) (port : Port) : NodeType := { t with outputs := t.outputs ++ [port] }

/-- The type with a parameter, in place of one with the same name. -/
def withParam (t : NodeType) (name : String) (param : Param) : NodeType :=
  { t with params := t.params.insert name param }

/-- The first input with a name. -/
def input? (t : NodeType) (name : String) : Option Port := t.inputs.find? (·.name == name)

/-- The first output with a name. -/
def output? (t : NodeType) (name : String) : Option Port := t.outputs.find? (·.name == name)

/-- The parameter with a name. -/
def param? (t : NodeType) (name : String) : Option Param := t.params.find? name

end NodeType

/-- The node types at hand, the latest first. -/
structure Catalog where
  types : List NodeType

namespace Catalog

/-- The catalog without types. -/
def empty : Catalog := ⟨[]⟩

/-- Adds a type, which from now on stands for its id. -/
def register (c : Catalog) (t : NodeType) : Catalog := ⟨t :: c.types⟩

/-- The catalog of a list of types; of two with one id the later stands. -/
def ofList (types : List NodeType) : Catalog := types.foldl register empty

/-- The type that stands for an id. -/
def find? (c : Catalog) (id : String) : Option NodeType := c.types.find? (·.id == id)

end Catalog

end ShaderGraph
