import ShaderGraph.Text.Word

/-!
# Settings

What can be chosen for a compilation. Some choices admit no program, and `Settings.check` names the
first of these.
-/

namespace ShaderGraph

/-- The choices of a compilation. -/
structure Settings where
  /-- Sources whose id starts with this mark are virtual: values from outside the graph. -/
  virtualMark : String := "virtual:"
  glslVersion : String := "300 es"
  /-- Whether float parameters can be adjusted while the program runs. -/
  parameterUniforms : Bool := true
  /-- The category of the nodes that a program may end in. -/
  outputCategory : String := "output"
  /-- The input of a marching node for the distance. -/
  distancePort : String := "sdf"
  /-- The input of a marching node for the displacement. -/
  displacementPort : String := "displacement"
  /-- The variable for the point that a marching node samples. -/
  marchPoint : String := "marchPos"
  /-- How many nodes deep a distance function may reach. -/
  inlineDepth : Nat := 32
deriving DecidableEq

/-- Why settings admit no program. -/
inductive SettingsError where
  | emptyVirtualMark
  | marchPointNoIdentifier (name : String)
  | zeroInlineDepth
deriving DecidableEq

/-- The wording of an error. -/
def SettingsError.message : SettingsError → String
  | .emptyVirtualMark => "invalid compiler configuration: virtualSourcePrefix must not be empty"
  | .marchPointNoIdentifier name =>
    "invalid compiler configuration: marchPointSymbol '" ++ name ++ "' is not a valid identifier"
  | .zeroInlineDepth => "invalid compiler configuration: maxInlineDepth must be at least 1"

namespace Settings

/-- What is wrong with settings, if anything is. -/
def problem? (s : Settings) : Option SettingsError :=
  if s.virtualMark = "" then some .emptyVirtualMark
  else if !Text.isIdentifier s.marchPoint.toList then some (.marchPointNoIdentifier s.marchPoint)
  else if s.inlineDepth = 0 then some .zeroInlineDepth
  else none

/-- Settings that admit a program pass. -/
def check (s : Settings) : Except SettingsError Settings :=
  match s.problem? with
  | some error => .error error
  | none => .ok s

/-- Whether an id names a virtual source. -/
def isVirtual (s : Settings) (id : String) : Bool :=
  s.virtualMark.toList.isPrefixOf id.toList

end Settings

end ShaderGraph
