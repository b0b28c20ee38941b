import ShaderGraph.Emit.March

/-!
# Bodies

The statements that each node contributes to the main function, in braces under a line that names
the node. A marching node without a distance marches against a surface too far away to meet.
-/

namespace ShaderGraph

/-- The distance where there is no surface. -/
def noSurface : String := "1000.0"

namespace Plan

variable (plan : Plan) (lib : Library) (marching : Marching)

/-- The bindings of a node in the main function, given its parameters and inputs. -/
def mainBindings (n : TypedNode) (params : Dict Resolved) (inputs : Dict String) : Bindings :=
  let calls := marching.calls.find? n.node.id
  { nodeId := n.node.id, inputs, outputs := outputs n, params := expressions params,
    coordinates := some .main,
    distance := calls.map fun c => c.distance.getD noSurface,
    displacement := calls.map fun c => c.displacement.getD neutral }

/-- The code of a node in the main function. -/
def mainCode (n : TypedNode) (template : Template) : Warned String := do
  let params ← plan.resolveAll n
  let inputs ← plan.inputs n params (some .main)
  let code ← (mainBindings marching n params inputs).fill template
  return (lib.renamingOf n.node.id).rename code

/-- The line that names a node. -/
def nodeLine (n : Node) : String := "    // node: " ++ n.id ++ " (" ++ n.type ++ ")"

/-- The body of a node, none where its type has no code. -/
def body (n : TypedNode) : Warned (Option String) :=
  let template := Template.parse n.type.mainCode
  if template.isBlank then pure none
  else do
    let code ← plan.mainCode lib marching n template
    return some (nodeLine n.node ++ "\n" ++ braced code)

end Plan

end ShaderGraph
