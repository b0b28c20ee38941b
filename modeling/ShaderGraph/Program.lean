import ShaderGraph.Symbol
import ShaderGraph.Text.Blank
import ShaderGraph.Text.Replace

/-!
# Programs

A program is a fixed frame with the parts of one graph in it. The frame has a mark for each part,
and the marks are replaced one kind after another. A mark inside a part is replaced as well if its
turn is still to come.
-/

namespace ShaderGraph

/-- The parts of a program. -/
structure Program where
  version : String
  /-- The lines that declare uniforms. -/
  uniforms : List String
  /-- The lines that declare variables. -/
  globals : List String
  functions : List String
  /-- The statements of the nodes in the main function. -/
  bodies : List String
  color : String
deriving DecidableEq

namespace Program

/-- A mark of the frame. -/
inductive Mark where
  | version
  | time
  | resolution
  | uniforms
  | globals
  | functions
  | body
  | color
deriving DecidableEq, Repr

/-- The marks in the order in which they are replaced. -/
def Mark.all : List Mark :=
  [.version, .time, .resolution, .uniforms, .globals, .functions, .body, .color]

/-- The name of a mark. -/
def Mark.name : Mark → String
  | .version => "VERSION"
  | .time => "TIME"
  | .resolution => "RESOLUTION"
  | .uniforms => "UNIFORMS"
  | .globals => "GLOBALS"
  | .functions => "FUNCTIONS"
  | .body => "BODY"
  | .color => "COLOR"

/-- How a mark is written. -/
def Mark.spelling (mark : Mark) : String := "\x7b\x7b" ++ mark.name ++ "\x7d\x7d"

/-- The frame of all programs, as text and marks. -/
def frame : List (String ⊕ Mark) :=
  [.inl "#version ", .inr .version,
   .inl "\nprecision highp float;\n\nuniform float ", .inr .time,
   .inl ";\nuniform vec2 ", .inr .resolution,
   .inl ";\n", .inr .uniforms,
   .inl "\nout vec4 fragColor;\n\n", .inr .globals,
   .inl "\n\n", .inr .functions,
   .inl "\n\nvoid main() \x7b\n    vec2 uv = (gl_FragCoord.xy - 0.5 * ", .inr .resolution,
   .inl ".xy) / ", .inr .resolution,
   .inl ".y;\n    vec3 p = vec3(uv, 0.0);\n\n", .inr .body,
   .inl "\n\n    fragColor = vec4(", .inr .color,
   .inl ", 1.0);\n\x7d\n"]

/-- The text of a frame, given the texts of its marks. -/
def textOf (marks : Mark → String) (pieces : List (String ⊕ Mark)) : String :=
  String.join (pieces.map fun
    | .inl text => text
    | .inr mark => marks mark)

/-- The text that replaces a mark. -/
def part (p : Program) : Mark → String
  | .version => p.version
  | .time => Symbol.time
  | .resolution => Symbol.resolution
  | .uniforms => "\n".intercalate p.uniforms
  | .globals => "\n".intercalate p.globals
  | .functions => "\n\n".intercalate ((p.functions.map Text.trimmed).filter (· != ""))
  | .body => "\n\n".intercalate p.bodies
  | .color => p.color

/-- The text with the marks of one kind replaced. -/
def put (p : Program) (text : String) (mark : Mark) : String :=
  Text.replace mark.spelling (p.part mark) text

/-- The text of a program. -/
def text (p : Program) : String :=
  Mark.all.foldl p.put (textOf Mark.spelling frame)

end Program

end ShaderGraph
