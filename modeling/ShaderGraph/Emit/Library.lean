import ShaderGraph.Emit.Inputs
import ShaderGraph.Glsl.Function

/-!
# The function library

Node types bring functions along. The code of each node is filled in for that node, and functions
that come out alike are written once. A node whose functions depend on the node itself, through an
input, an output, a connected or automated parameter or a uniform of its own, gets functions of its
own: they are renamed, and so are the calls in the node's code.
-/

namespace ShaderGraph

/-- The functions of a program. -/
structure Library where
  /-- What stands at the top level beside functions, each text once. -/
  preamble : List String := []
  functions : List Glsl.Function := []
  /-- The new names of the functions that belong to one node. -/
  renamings : Dict Glsl.Renaming := ∅

namespace Library

variable (lib : Library)

/-- What tells the functions apart, in their order. -/
def signatures : List String := lib.functions.map (·.signature)

/-- The function with a signature. -/
def function? (signature : String) : Option Glsl.Function :=
  lib.functions.find? (·.signature == signature)

/-- The new names in the code of a node. -/
def renamingOf (nodeId : String) : Glsl.Renaming := (lib.renamings.find? nodeId).getD []

/-- Whether the library has a function of the same signature with another text. -/
def conflictsWith (f : Glsl.Function) : Bool :=
  (lib.function? f.signature).any (·.text != f.text)

/-- Adds a function of a node, unless there is one of its signature. -/
def addFunction (nodeId : String) (f : Glsl.Function) : Warned Library :=
  match lib.function? f.signature with
  | none => pure { lib with functions := lib.functions ++ [f] }
  | some found =>
    if found.text = f.text then pure lib
    else do
      Warned.warn (.conflictingFunction f.name nodeId)
      return lib

/-- Adds functions of a node one after another. -/
def addFunctions (nodeId : String) : List Glsl.Function → Library → Warned Library
  | [], lib => pure lib
  | f :: rest, lib => do addFunctions nodeId rest (← lib.addFunction nodeId f)

/-- Adds a text to the preamble, unless it is empty or there already. -/
def addPreamble (text : String) : Library :=
  if text = "" || lib.preamble.contains text then lib
  else { lib with preamble := lib.preamble ++ [text] }

/-- Adds the functions and the preamble of a node's code. -/
def addSource (nodeId : String) (source : Glsl.Source) : Warned Library :=
  addFunctions nodeId (source.functions.map (·.function)) (lib.addPreamble source.preamble)

end Library

/-- The function code of a node, filled in. -/
structure Specialised where
  template : Template
  params : Dict Resolved
  code : String

namespace Specialised

variable (s : Specialised)

/-- Whether a placeholder stands for something that belongs to one node. -/
def isOwn (params : Dict Resolved) : Placeholder → Bool
  | .param name =>
    (params.find? name).any fun r => r.origin == .connection || r.origin == .automation
  | .input _ => true
  | .output _ => true
  | _ => false

/-- Whether the code names something that belongs to one node, given the node's uniforms. -/
def isPersonal (uniforms : List String) : Bool :=
  s.template.placeholders.any (isOwn s.params)
    || let used := Glsl.identifiers s.code
       uniforms.any used.contains

/-- Whether the code depends on the values of parameters. -/
def readsParams : Bool :=
  s.template.placeholders.any fun
    | .param _ => true
    | _ => false

end Specialised

/-- New names for functions, with the id of their node at the end. -/
def instanceRenaming (nodeId : String) (functions : List Glsl.Function) : Glsl.Renaming :=
  functions.map fun f => (f.name, Symbol.instanced f.name nodeId)

namespace Plan

variable (plan : Plan)

/-- The function code of a node, filled in where there are no coordinates. -/
def specialise (n : TypedNode) (code : String) : Warned Specialised := do
  let template := Template.parse code
  let params ← plan.resolveAll n
  let inputs ← plan.inputs n params none
  let bindings : Bindings :=
    { nodeId := n.node.id, inputs, outputs := outputs n, params := expressions params }
  return ⟨template, params, ← bindings.fill template⟩

/-- Whether the functions of a node have to be its own: they depend on the node, or they depend on
parameters and the library has others in their place. -/
def needsOwn (lib : Library) (n : TypedNode) (s : Specialised) (found : List Glsl.Function) :
    Bool :=
  s.isPersonal (plan.uniforms.namesOf n.node.id)
    || (s.readsParams && found.any lib.conflictsWith)

/-- Adds the filled in code of a node. -/
def addCode (lib : Library) (n : TypedNode) (s : Specialised) : Warned Library :=
  let source := Glsl.scan s.code
  let found := source.functions.map (·.function)
  if plan.needsOwn lib n s found && !found.isEmpty then
    let names := instanceRenaming n.node.id found
    let own := Glsl.scan (names.rename s.code)
    { lib with renamings := lib.renamings.insert n.node.id names }.addSource n.node.id own
  else lib.addSource n.node.id source

/-- Adds what a node brings along. -/
def addNode (lib : Library) (n : TypedNode) : Warned Library :=
  match n.type.functionCode with
  | none => pure lib
  | some code =>
    if Text.isBlankText code then pure lib
    else do plan.addCode lib n (← plan.specialise n code)

/-- Adds what nodes bring along, one after another. -/
def addNodes : List TypedNode → Library → Warned Library
  | [], lib => pure lib
  | n :: rest, lib => do addNodes rest (← plan.addNode lib n)

/-- The library of the program. -/
def library : Warned Library := plan.addNodes plan.nodes {}

end Plan

end ShaderGraph
