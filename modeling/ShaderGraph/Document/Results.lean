import ShaderGraph.Compile
import ShaderGraph.Document.NodeTypes

/-!
# Results as documents

What an editor is told about a compilation: the text of the program, the uniforms that it uses and
the diagnostics.
-/

namespace ShaderGraph

/-- A uniform as a document. -/
def Uniform.toJson (u : Uniform) : Json :=
  .record [("name", .ofText u.name), ("nodeId", .ofText u.nodeId),
    ("paramName", .ofText u.paramName), ("glslType", .ofText u.type.name),
    ("defaultValue", .ofFloat u.defaultValue)]

namespace Compilation

variable (c : Compilation)

/-- The wording of the problems. -/
def errors : List String := c.problems.map Problem.message

/-- The wording of the warnings. -/
def notices : List String := c.warnings.map Warning.message

/-- The diagnostics as a document. -/
def diagnostics : Json :=
  .record [("errors", .ofTexts c.errors), ("warnings", .ofTexts c.notices),
    ("executionOrder", .ofTexts c.order), ("finalOutputNodeId", .ofText? c.finalNode)]

/-- A result as a document. -/
def toJson : Json :=
  .record [("programText", .ofText c.program.text),
    ("uniforms", .array (c.uniforms.map Uniform.toJson)), ("diagnostics", c.diagnostics)]

end Compilation

end ShaderGraph
