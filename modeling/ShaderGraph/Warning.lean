import ShaderGraph.Template
import ShaderGraph.ValueType

/-!
# Warnings

What cannot be written as the graph asks is written in a simpler way and reported. A computation
that may report is a `Warned` value: its result with the warnings in the order in which they arose.
-/

namespace ShaderGraph

/-- What stands in for a value that cannot be found. -/
def neutral : String := ValueType.float.zero

/-- What stands in for a placeholder that cannot be filled. -/
def Placeholder.neutral : Placeholder → String
  | .position => ValueType.vec3.zero
  | .uv => ValueType.vec2.zero
  | _ => ShaderGraph.neutral

/-- What was written in a simpler way than the graph asks. -/
inductive Warning where
  /-- Code outside every function uses a position. -/
  | noCoordinate (placeholder : Placeholder) (nodeId : String)
  | unresolved (placeholder : Placeholder) (nodeId : String)
  | noVirtualUniform (sourceId : String)
  /-- A parameter is connected to a variable that is not declared. -/
  | undeclaredForParameter (connectionId nodeId symbol : String)
  /-- An input is connected to a variable that is not declared. -/
  | undeclaredForInput (connectionId symbol nodeId port : String)
  /-- A variable is declared only because a connection reads it. -/
  | declaredForConnection (connectionId symbol : String)
  | unknownFallback (nodeId port param : String)
  | conflictingFunction (function nodeId : String)
  | evaluatorRepeated (laneId evaluator : String)
  | noDistance (nodeId : String)
  | tooDeep (limit : Nat) (nodeId : String)
  | unknownOutput (nodeId port : String)
  | severalTerminals (count : Nat)
  | noColor
deriving DecidableEq

/-- The wording of a warning. -/
def Warning.message : Warning → String
  | .noCoordinate placeholder nodeId =>
    "'" ++ placeholder.spelling ++ "' in global-scope code of node '" ++ nodeId
      ++ "' has no coordinate in scope; replaced with " ++ placeholder.neutral
  | .unresolved placeholder nodeId =>
    "Unresolved placeholder '" ++ placeholder.spelling ++ "' in node '" ++ nodeId
      ++ "' replaced with " ++ neutral
  | .noVirtualUniform sourceId => "Virtual source '" ++ sourceId ++ "' has no uniform"
  | .undeclaredForParameter connectionId nodeId symbol =>
    "Parameter connection '" ++ connectionId ++ "' into node '" ++ nodeId
      ++ "' references undeclared '" ++ symbol ++ "'; using " ++ neutral
  | .undeclaredForInput connectionId symbol nodeId port =>
    "Connection '" ++ connectionId ++ "' references undeclared '" ++ symbol
      ++ "'; falling back for input '" ++ nodeId ++ "." ++ port ++ "'"
  | .declaredForConnection connectionId symbol =>
    "Connection '" ++ connectionId ++ "' reads undeclared output '" ++ symbol
      ++ "'; declared as float"
  | .unknownFallback nodeId port param =>
    "Input '" ++ nodeId ++ "." ++ port ++ "' falls back to unknown parameter '" ++ param ++ "'"
  | .conflictingFunction function nodeId =>
    "Function '" ++ function ++ "' from node '" ++ nodeId
      ++ "' conflicts with an earlier definition; keeping the first"
  | .evaluatorRepeated laneId evaluator =>
    "Automation lane '" ++ laneId ++ "' maps to duplicate evaluator '" ++ evaluator ++ "'; skipped"
  | .noDistance nodeId =>
    "Raymarcher '" ++ nodeId ++ "' has no distance input; marching against nothing"
  | .tooDeep limit nodeId =>
    "Raymarch inlining exceeded depth " ++ limit.repr ++ " at node '" ++ nodeId ++ "'; using "
      ++ neutral
  | .unknownOutput nodeId port =>
    "Raymarch input reads unknown output '" ++ nodeId ++ "." ++ port ++ "'; using " ++ neutral
  | .severalTerminals count =>
    count.repr ++ " terminal nodes found; picking one for the final color"
  | .noColor => "No color output found; rendering black"

variable {α β : Type}

/-- A result with the warnings that arose on the way to it. -/
structure Warned (α : Type) where
  value : α
  warnings : List Warning
deriving DecidableEq

namespace Warned

instance : Monad Warned where
  pure a := ⟨a, []⟩
  bind x f :=
    let y := f x.value
    ⟨y.value, x.warnings ++ y.warnings⟩

/-- A report by itself. -/
def warn (warning : Warning) : Warned Unit := ⟨(), [warning]⟩

/-- The results for the elements of a list, one after another. -/
def each (f : α → Warned β) (items : List α) : Warned (List β) :=
  let results := items.map f
  ⟨results.map (·.value), results.flatMap (·.warnings)⟩

@[simp] theorem value_pure (a : α) : (pure a : Warned α).value = a := rfl

@[simp] theorem warnings_pure (a : α) : (pure a : Warned α).warnings = [] := rfl

@[simp] theorem value_bind (x : Warned α) (f : α → Warned β) :
    (x >>= f).value = (f x.value).value := rfl

@[simp] theorem warnings_bind (x : Warned α) (f : α → Warned β) :
    (x >>= f).warnings = x.warnings ++ (f x.value).warnings := rfl

@[simp] theorem warnings_warn (warning : Warning) : (warn warning).warnings = [warning] := rfl

@[simp] theorem value_each (f : α → Warned β) (items : List α) :
    (each f items).value = items.map fun a => (f a).value := by
  simp [each]

@[simp] theorem warnings_each (f : α → Warned β) (items : List α) :
    (each f items).warnings = items.flatMap fun a => (f a).warnings := by
  simp [each, List.flatMap_map]

end Warned

end ShaderGraph
