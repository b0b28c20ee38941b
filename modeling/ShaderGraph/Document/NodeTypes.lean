import ShaderGraph.Json.Decode
import ShaderGraph.NodeType

/-!
# Node types as documents

A catalog is an array of node types. Fields are written in order of declaration, and a fallback, a
bound or function code that is absent is left out.
-/

namespace ShaderGraph

open Json (Decoder)

/-- Values of parameters: a number, a text or an array of numbers. -/
def Param.Value.ofJson : Decoder Param.Value
  | .number n => n.toFloat?.map .number
  | .string (some content) => some (.text content)
  | .array items => (items.mapM Json.asFloat).map .numbers
  | _ => none

/-- The document of a value. -/
def Param.Value.toJson : Param.Value → Json
  | .number value => Json.ofFloat value
  | .text value => Json.ofText value
  | .numbers values => .array (values.map Json.ofFloat)

/-- The type of a value by its name. -/
def ValueType.ofJson : Decoder ValueType := Json.asChoice ValueType.all ValueType.name

/-- A rule for connected values by its name. -/
def Param.Combine.ofJson : Decoder Param.Combine :=
  Json.asChoice Param.Combine.all Param.Combine.name

/-- A kind of parameter by its name. -/
def Param.Kind.ofJson : Decoder Param.Kind := Json.asChoice Param.Kind.all Param.Kind.name

/-- Reads a port. -/
def Port.ofJson (json : Json) : Option Port := do
  let f ← Json.fields ["name", "type", "fallback", "fallbackParams"] json
  return {
    name := ← f.required "name" Json.asText
    type := ← f.required "type" ValueType.ofJson
    fallback := ← f.optional "fallback" Json.asText
    fallbackParams := ← f.list "fallbackParams" Json.asText }

/-- A member of a document that is left out where there is nothing to write. -/
def Json.optionalMember (name : String) : Option Json → List (String × Json)
  | some value => [(name, value)]
  | none => []

/-- The document of a port. -/
def Port.toJson (p : Port) : Json :=
  .record ([("name", .ofText p.name), ("type", .ofText p.type.name)]
    ++ Json.optionalMember "fallback" (p.fallback.map Json.ofText)
    ++ (if p.fallbackParams.isEmpty then [] else [("fallbackParams", .ofTexts p.fallbackParams)]))

/-- Reads a parameter. -/
def Param.ofJson (json : Json) : Option Param := do
  let f ← Json.fields ["type", "default", "min", "max", "combinationMode"] json
  return {
    kind := ← f.required "type" Param.Kind.ofJson
    default := ← f.required "default" Param.Value.ofJson
    min := ← f.optional "min" Json.asFloat
    max := ← f.optional "max" Json.asFloat
    combine := ← f.withDefault "combinationMode" Param.Combine.ofJson .override }

/-- The document of a parameter. -/
def Param.toJson (p : Param) : Json :=
  .record ([("type", .ofText p.kind.name), ("default", p.default.toJson)]
    ++ Json.optionalMember "min" (p.min.map Json.ofFloat)
    ++ Json.optionalMember "max" (p.max.map Json.ofFloat)
    ++ [("combinationMode", .ofText p.combine.name)])

/-- Reads a node type. -/
def NodeType.ofJson (json : Json) : Option NodeType := do
  let f ← Json.fields
    ["id", "category", "inputs", "outputs", "parameters", "functionCode", "mainCode"] json
  return {
    id := ← f.required "id" Json.asText
    category := ← f.withDefault "category" Json.asText ""
    inputs := ← f.list "inputs" Port.ofJson
    outputs := ← f.list "outputs" Port.ofJson
    params := ← f.withDefault "parameters" (Json.asDict Param.ofJson) ∅
    functionCode := ← f.optional "functionCode" Json.asText
    mainCode := ← f.withDefault "mainCode" Json.asText "" }

/-- The document of a map. -/
def Dict.toJson {α : Type} (value : α → Json) (d : Dict α) : Json :=
  .record (d.entries.map fun e => (e.1, value e.2))

/-- The document of a node type. -/
def NodeType.toJson (t : NodeType) : Json :=
  .record ([("id", .ofText t.id), ("category", .ofText t.category),
      ("inputs", .array (t.inputs.map Port.toJson)),
      ("outputs", .array (t.outputs.map Port.toJson)),
      ("parameters", t.params.toJson Param.toJson)]
    ++ Json.optionalMember "functionCode" (t.functionCode.map Json.ofText)
    ++ [("mainCode", .ofText t.mainCode)])

/-- Reads a catalog. -/
def Catalog.ofJson (json : Json) : Option Catalog :=
  (Json.asList NodeType.ofJson json).map Catalog.ofList

/-- Reads a catalog from a text. -/
def Catalog.parse? (text : String) : Option Catalog := do
  Catalog.ofJson (← Json.parse? text)

end ShaderGraph
