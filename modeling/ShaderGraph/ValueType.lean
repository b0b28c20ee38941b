/-!
# Types of values

The types that ports carry. A connection may widen along `float`, `vec2`, `vec3`, `vec4`; an
integer goes only into an integer.
-/

namespace ShaderGraph

/-- The type of the value at a port. -/
inductive ValueType where
  | float
  | int
  | vec2
  | vec3
  | vec4
deriving DecidableEq, Repr

namespace ValueType

/-- The name of the type, in documents and in code. -/
def name : ValueType → String
  | .float => "float"
  | .int => "int"
  | .vec2 => "vec2"
  | .vec3 => "vec3"
  | .vec4 => "vec4"

/-- All types. -/
def all : List ValueType := [.float, .int, .vec2, .vec3, .vec4]

/-- The number of components. -/
def size : ValueType → Nat
  | .float => 1
  | .int => 1
  | .vec2 => 2
  | .vec3 => 3
  | .vec4 => 4

/-- The zero literal of the type. -/
def zero : ValueType → String
  | .float => "0.0"
  | .int => "0"
  | .vec2 => "vec2(0.0)"
  | .vec3 => "vec3(0.0)"
  | .vec4 => "vec4(0.0)"

/-- Whether a value of the first type may flow into a port of the second: the types are equal, or
both are of floats and the second has more components. -/
def widensTo (source target : ValueType) : Bool :=
  source == target || (source != .int && target != .int && source.size < target.size)

/-- Whether a value has room for red, green and blue. -/
def isColor : ValueType → Bool
  | .vec3 => true
  | .vec4 => true
  | _ => false

end ValueType

end ShaderGraph
