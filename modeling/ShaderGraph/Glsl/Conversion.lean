import ShaderGraph.ValueType

/-!
# Conversions between types

Expressions are texts. A vector loses components from the end, a number fills all components, and a
vector that gets longer gets zeros, with a one for alpha.
-/

namespace ShaderGraph.Glsl

/-- Whether an expression is a plain symbol that components can be taken from as it stands. -/
def isSymbol (expr : String) : Bool :=
  expr != "" && expr.toList.all fun c => c.isAlphanum || c == '_' || c == '.'

/-- Components of an expression, in parentheses unless it is a plain symbol. -/
def components (expr names : String) : String :=
  if isSymbol expr then expr ++ "." ++ names else "(" ++ expr ++ ")." ++ names

/-- A constructor or function applied to an expression. -/
def applied (function argument : String) : String := function ++ "(" ++ argument ++ ")"

/-- An expression of one type as one of another. -/
def convert (expr : String) : ValueType → ValueType → String
  | .float, .float => expr
  | .int, .int => expr
  | .vec2, .vec2 => expr
  | .vec3, .vec3 => expr
  | .vec4, .vec4 => expr
  | .int, .float => applied "float" expr
  | .float, .int => applied "int" expr
  | .int, target => applied target.name (applied "float" expr)
  | .float, target => applied target.name expr
  | _, .float => components expr "x"
  | _, .int => applied "int" (components expr "x")
  | .vec2, .vec3 => applied "vec3" (expr ++ ", 0.0")
  | .vec2, .vec4 => applied "vec4" (expr ++ ", 0.0, 1.0")
  | .vec3, .vec4 => applied "vec4" (expr ++ ", 1.0")
  | .vec3, .vec2 => components expr "xy"
  | .vec4, .vec2 => components expr "xy"
  | .vec4, .vec3 => components expr "xyz"

/-- An expression as a float. -/
def toFloat (expr : String) (source : ValueType) : String := convert expr source .float

/-- An expression as red, green and blue. -/
def toColor (expr : String) (source : ValueType) : String := convert expr source .vec3

/-- A value of a type from float components. A single one fills the value; otherwise missing ones
are zero and extra ones are dropped. -/
def assemble (parts : List String) (target : ValueType) : String :=
  match parts, target with
  | [], _ => target.zero
  | first :: _, .int => applied "int" first
  | first :: _, .float => first
  | [only], _ => applied target.name only
  | _, _ =>
    let padded := parts.take target.size ++ List.replicate (target.size - parts.length) "0.0"
    applied target.name (", ".intercalate padded)

end ShaderGraph.Glsl
