import ShaderGraph.Json.Decode
import ShaderGraph.Settings

/-!
# Settings as a document

Every field has a default, so an empty object or array is a document of the default settings.
Reading does not check that the settings admit a program.
-/

namespace ShaderGraph

/-- Reads settings. -/
def Settings.ofJson (json : Json) : Option Settings := do
  let f ← Json.fields
    ["virtualSourcePrefix", "glslVersion", "parameterUniforms", "outputCategory", "sdfInputPort",
     "displacementInputPort", "marchPointSymbol", "maxInlineDepth"] json
  let default : Settings := {}
  return {
    virtualMark := ← f.withDefault "virtualSourcePrefix" Json.asText default.virtualMark
    glslVersion := ← f.withDefault "glslVersion" Json.asText default.glslVersion
    parameterUniforms := ← f.withDefault "parameterUniforms" Json.asBool default.parameterUniforms
    outputCategory := ← f.withDefault "outputCategory" Json.asText default.outputCategory
    distancePort := ← f.withDefault "sdfInputPort" Json.asText default.distancePort
    displacementPort := ← f.withDefault "displacementInputPort" Json.asText default.displacementPort
    marchPoint := ← f.withDefault "marchPointSymbol" Json.asText default.marchPoint
    inlineDepth := ← f.withDefault "maxInlineDepth" Json.asNat default.inlineDepth }

/-- The document of settings. -/
def Settings.toJson (s : Settings) : Json :=
  .record [("virtualSourcePrefix", .ofText s.virtualMark), ("glslVersion", .ofText s.glslVersion),
    ("parameterUniforms", .bool s.parameterUniforms), ("outputCategory", .ofText s.outputCategory),
    ("sdfInputPort", .ofText s.distancePort), ("displacementInputPort", .ofText s.displacementPort),
    ("marchPointSymbol", .ofText s.marchPoint), ("maxInlineDepth", .ofNat s.inlineDepth)]

/-- Reads settings from a text. -/
def Settings.parse? (text : String) : Option Settings := do
  Settings.ofJson (← Json.parse? text)

end ShaderGraph
