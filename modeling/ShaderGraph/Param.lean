import ShaderGraph.ValueType

/-!
# Parameters

A node type declares parameters, each of a kind, with a default and a rule for how a connected
value combines with the configured one. A node may set its own value for a parameter.
-/

namespace ShaderGraph

namespace Param

/-- What a parameter is set to. -/
inductive Value where
  | number (value : Float)
  | text (value : String)
  | numbers (values : List Float)
deriving DecidableEq

/-- The number that a value is, if it is one. -/
def Value.number? : Value → Option Float
  | .number value => some value
  | _ => none

/-- How a connected value combines with the configured one. -/
inductive Combine where
  | override
  | add
  | subtract
  | multiply
deriving DecidableEq, Repr

/-- The name of the rule in documents. -/
def Combine.name : Combine → String
  | .override => "override"
  | .add => "add"
  | .subtract => "subtract"
  | .multiply => "multiply"

/-- All rules. -/
def Combine.all : List Combine := [.override, .add, .subtract, .multiply]

/-- The kind of a parameter. Only floats can be connected, automated or given a uniform. -/
inductive Kind where
  | float
  | int
  | string
  | array
deriving DecidableEq, Repr

/-- The name of the kind in documents. -/
def Kind.name : Kind → String
  | .float => "float"
  | .int => "int"
  | .string => "string"
  | .array => "array"

/-- All kinds. -/
def Kind.all : List Kind := [.float, .int, .string, .array]

end Param

/-- A parameter that a node type declares. -/
structure Param where
  kind : Param.Kind
  default : Param.Value
  min : Option Float
  max : Option Float
  combine : Param.Combine
deriving DecidableEq

namespace Param

/-- The parameter with a kind and a default, without bounds, overridden by what is connected. -/
def ofDefault (kind : Kind) (default : Value) : Param :=
  ⟨kind, default, none, none, .override⟩

/-- A float parameter. -/
def float (default : Float) : Param := .ofDefault .float (.number default)

/-- An integer parameter, its default given as a whole number. -/
def int (default : Int) : Param := .ofDefault .int (.number (Float.ofInt default))

/-- A text parameter. -/
def string (default : String) : Param := .ofDefault .string (.text default)

/-- An array parameter. -/
def array (default : List Float) : Param := .ofDefault .array (.numbers default)

/-- The parameter with both bounds set. -/
def withRange (p : Param) (min max : Float) : Param :=
  { p with min := some min, max := some max }

/-- The parameter with a rule for connected values. -/
def withCombine (p : Param) (combine : Combine) : Param :=
  { p with combine := combine }

end Param

end ShaderGraph
