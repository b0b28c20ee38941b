import ShaderGraph.Check.Structure
import ShaderGraph.Check.Types
import ShaderGraph.Emit.Body
import ShaderGraph.Emit.Color
import ShaderGraph.Emit.Declarations
import ShaderGraph.Emit.Evaluator
import ShaderGraph.Failure
import ShaderGraph.Order
import ShaderGraph.Program

/-!
# Compilation

A graph becomes a fragment program. Settings that admit no program and graphs without an order of
execution fail. Problems of the graph do not: they are reported beside a program that does what can
be done.
-/

namespace ShaderGraph

/-- What a compilation gives. -/
structure Compilation where
  program : Program
  /-- The uniforms that the program uses. -/
  uniforms : List Uniform
  problems : List Problem
  warnings : List Warning
  order : List String
  finalNode : Option String

/-- The parts of a program below its uniforms. -/
structure Sections where
  declarations : List Declaration
  functions : List String
  bodies : List String
  color : FinalColor

namespace Sections

variable (s : Sections)

/-- The lines that declare the variables. -/
def globals : List String := s.declarations.map Declaration.line

/-- The texts of all parts. -/
def texts : List String := s.globals ++ s.functions ++ s.bodies ++ [s.color.expr]

/-- The identifiers in the code of all parts. -/
def identifiers : List String := s.texts.flatMap Glsl.identifiers

end Sections

/-- The texts of the functions of a program: the preamble, the evaluators, the library and the
distance functions. -/
def functionTexts (evaluators : List (Evaluator Float)) (lib : Library) (marching : Marching) :
    List String :=
  (if lib.preamble.isEmpty then [] else ["\n\n".intercalate lib.preamble])
    ++ evaluators.map Evaluator.text ++ lib.functions.map (·.text) ++ marching.functions

namespace Plan

/-- The plan of a graph before its variables are known. -/
def ofGraph (catalog : Catalog) (settings : Settings) (g : Graph) (order : List String) : Plan :=
  ⟨g, catalog, settings, order, UniformTable.ofGraph catalog settings g, []⟩

variable (plan : Plan)

/-- The plan with its variables known. -/
def declaring (declarations : List Declaration) : Plan :=
  { plan with declared := declarations.map Declaration.symbol }

/-- The bodies of the nodes. -/
def bodies (lib : Library) (marching : Marching) : Warned (List String) := do
  let bodies ← Warned.each (plan.body lib marching) plan.nodes
  return bodies.filterMap id

/-- The parts of the program. -/
def sections : Warned Sections := do
  let declarations ← plan.declarations
  let plan := plan.declaring declarations
  let lib ← plan.library
  let evaluators ← plan.evaluators
  let marching ← plan.marching lib
  let bodies ← plan.bodies lib marching
  let color ← plan.finalColor
  return ⟨declarations, functionTexts evaluators lib marching, bodies, color⟩

end Plan

/-- The line that declares a uniform. -/
def Uniform.line (u : Uniform) : String := "uniform " ++ u.type.name ++ " " ++ u.name ++ ";"

/-- The program of its parts, with the uniforms that it uses. -/
def Sections.program (s : Sections) (settings : Settings) (uniforms : List Uniform) : Program where
  version := settings.glslVersion
  uniforms := uniforms.map Uniform.line
  globals := s.globals
  functions := s.functions
  bodies := s.bodies
  color := s.color.expr

/-- What a graph with an order of execution compiles to. -/
def compileOrdered (catalog : Catalog) (settings : Settings) (g : Graph) (order : List String) :
    Compilation :=
  let plan := Plan.ofGraph catalog settings g order
  let sections := plan.sections
  let uniforms := plan.uniforms.used sections.value.identifiers
  { program := sections.value.program settings uniforms
    uniforms
    problems := checkStructure catalog settings g ++ checkTypes catalog settings g
    warnings := distinctOn Warning.message sections.warnings
    order
    finalNode := sections.value.color.nodeId }

/-- Compiles a graph. -/
def compile (catalog : Catalog) (settings : Settings) (g : Graph) : Except Failure Compilation :=
  match settings.check with
  | .error error => .error (.settings error)
  | .ok settings =>
    match g.executionOrder settings with
    | .error remaining => .error (.cycle remaining)
    | .ok order => .ok (compileOrdered catalog settings g order)

end ShaderGraph
