/-!
# Symbols of the program

The identifiers that a program gives to the parts of a graph. Ids and names may hold any characters,
so each is cleaned first: what is not an ASCII letter or digit becomes an underscore.
-/

namespace ShaderGraph.Symbol

/-- A text with an underscore for every character that is not an ASCII letter or digit. -/
def clean (text : String) : String :=
  text.map fun c => if c.isAlphanum then c else '_'

/-- The text with its first character in upper case, where that is an ASCII letter. -/
def capitalize (text : String) : String :=
  match text.toList with
  | [] => ""
  | c :: rest => String.ofList (c.toUpper :: rest)

/-- The text without a mark that it starts with. -/
def unmarked (mark text : String) : String :=
  if mark.toList.isPrefixOf text.toList then String.ofList (text.toList.drop mark.toList.length)
  else text

/-- The uniform for the elapsed time. -/
def time : String := "uTime"

/-- The uniform for the size of the picture. -/
def resolution : String := "uResolution"

/-- The position that the main function declares. -/
def position : String := "p"

/-- The coordinate in the picture that the main function declares. -/
def uv : String := "uv"

/-- The variable for an output. -/
def output (nodeId port : String) : String := "node_" ++ clean nodeId ++ "_" ++ clean port

/-- The variable for an array parameter. -/
def array (nodeId param : String) : String := "array_" ++ clean nodeId ++ "_" ++ clean param

/-- The function that evaluates a lane. -/
def evaluator (laneId : String) : String := "automation_" ++ clean laneId

/-- The name of a function that belongs to one node alone. -/
def instanced (function nodeId : String) : String := function ++ "_" ++ clean nodeId

/-- The distance function of a marching node. -/
def distance (nodeId : String) : String := "sdf_" ++ clean nodeId

/-- The displacement function of a marching node. -/
def displacement (nodeId : String) : String := "displacement_" ++ clean nodeId

/-- The local variable for an output inside a distance or displacement function. -/
def inlined (nodeId port : String) : String := "rm_" ++ clean nodeId ++ "_" ++ clean port

/-- The uniform for a parameter. -/
def uniform (nodeId param : String) : String := "u" ++ clean nodeId ++ capitalize (clean param)

/-- The uniform for a virtual source. -/
def virtualUniform (mark sourceId : String) : String :=
  "u_virtual_" ++ clean (unmarked mark sourceId)

end ShaderGraph.Symbol
