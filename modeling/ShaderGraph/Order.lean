import ShaderGraph.Distinct
import ShaderGraph.Graph
import ShaderGraph.Settings

/-!
# Dependencies and the order of execution

An edge of a graph is a connection between two of its nodes whose source is not virtual. Nodes are
put in order by taking out, again and again, a node all of whose sources are taken out: a queue
holds the nodes that are free, and a node joins it when its degree, the number of its sources still
waiting, comes down to zero. Nodes that no connection mentions come last, so that adding one moves
no other. What is left over when the queue is empty lies on a cycle or behind one.

The nodes affected by a change are found breadth first along the edges.
-/

namespace ShaderGraph

/-- Source and target of each edge. -/
abbrev Edges := List (String × String)

namespace Edges

/-- The sources of a node, each once, in the order of the edges. -/
def sourcesOf (edges : Edges) (id : String) : List String :=
  distinct ((edges.filter (·.2 == id)).map Prod.fst)

/-- The targets of a node, each once, in the order of the edges. -/
def targetsOf (edges : Edges) (id : String) : List String :=
  distinct ((edges.filter (·.1 == id)).map Prod.snd)

end Edges

/-! ## Taking out free nodes -/

/-- The number of sources each node still waits for. -/
abbrev Degrees := List (String × Nat)

namespace Degrees

/-- Lowers the degree of a node by one, and says whether that freed it. -/
def lower (id : String) : Degrees → Degrees × Bool
  | [] => ([], false)
  | (key, degree) :: rest =>
    if key = id then ((key, degree - 1) :: rest, degree == 1)
    else
      let lowered := lower id rest
      ((key, degree) :: lowered.1, lowered.2)

/-- The sum of all degrees. -/
def total : Degrees → Nat
  | [] => 0
  | (_, degree) :: rest => degree + total rest

/-- Freeing a node costs one of the total. -/
theorem total_lower (id : String) (degrees : Degrees) :
    total (lower id degrees).1 + (if (lower id degrees).2 then 1 else 0) ≤ total degrees := by
  induction degrees with
  | nil => simp [lower, total]
  | cons entry rest ih =>
    obtain ⟨key, degree⟩ := entry
    rw [lower]
    split
    · simp only [total, beq_iff_eq]
      split <;> omega
    · simp only [total] at ih ⊢
      omega

/-- Lowers the degrees of several nodes; those that are freed join the queue. -/
def release : List String → Degrees → List String → Degrees × List String
  | [], degrees, queue => (degrees, queue)
  | id :: rest, degrees, queue =>
    let lowered := lower id degrees
    release rest lowered.1 (if lowered.2 then queue ++ [id] else queue)

/-- Releasing nodes makes no more work than there was. -/
theorem work_release (ids : List String) (degrees : Degrees) (queue : List String) :
    total (release ids degrees queue).1 + (release ids degrees queue).2.length
      ≤ total degrees + queue.length := by
  induction ids generalizing degrees queue with
  | nil => exact Nat.le_refl _
  | cons id rest ih =>
    refine Nat.le_trans (ih _ _) ?_
    have h := total_lower id degrees
    by_cases hf : (lower id degrees).2 <;> simp [hf] at h ⊢ <;> omega

end Degrees

/-- Takes out the nodes of the queue in turn, and whatever they free. -/
def drain (edges : Edges) (degrees : Degrees) (placed : List String) : List String → List String
  | [] => placed
  | id :: queue =>
    let released := degrees.release (edges.targetsOf id) queue
    drain edges released.1 (placed ++ [id]) released.2
termination_by queue => degrees.total + queue.length
decreasing_by
  have := degrees.work_release (edges.targetsOf id) queue
  simp only [List.length_cons]
  omega

/-! ## Spreading along edges -/

/-- Moves those of some nodes that are unseen to the end of the queue. -/
def discover : List String → List String → List String → List String × List String
  | [], queue, unseen => (queue, unseen)
  | id :: rest, queue, unseen =>
    if id ∈ unseen then discover rest (queue ++ [id]) (unseen.erase id)
    else discover rest queue unseen

theorem work_discover (ids queue unseen : List String) :
    (discover ids queue unseen).1.length + (discover ids queue unseen).2.length
      = queue.length + unseen.length := by
  induction ids generalizing queue unseen with
  | nil => rfl
  | cons id rest ih =>
    rw [discover]
    split
    · rename_i h
      rw [ih, List.length_append, List.length_erase_of_mem h]
      have := List.length_pos_of_mem h
      simp only [List.length_singleton]
      omega
    · exact ih _ _

/-- Visits the nodes of the queue in turn, and whatever unseen nodes they lead to. -/
def flood (edges : Edges) (unseen visited : List String) : List String → List String
  | [] => visited
  | id :: queue =>
    let discovered := discover (edges.targetsOf id) queue unseen
    flood edges discovered.2 (visited ++ [id]) discovered.1
termination_by queue => queue.length + unseen.length
decreasing_by
  have := work_discover (edges.targetsOf id) queue unseen
  simp only [List.length_cons]
  omega

namespace Graph

variable (settings : Settings) (g : Graph)

/-- The ids of the nodes, each where it first stands. -/
def nodeIds : List String := distinct (g.nodes.map (·.id))

/-- Whether some node has an id. -/
def hasNode (id : String) : Bool := g.nodes.any (·.id == id)

/-- Whether a connection runs between two nodes of the graph and from no virtual source. -/
def isEdge (c : Connection) : Bool :=
  !settings.isVirtual c.sourceId && g.hasNode c.sourceId && g.hasNode c.targetId

/-- The edges, in the order of the connections. -/
def edges : Edges :=
  (g.connections.filter (g.isEdge settings)).map fun c => (c.sourceId, c.targetId)

/-- The nodes that each node reads from. -/
def dependencies : List (String × List String) :=
  let edges := g.edges settings
  g.nodeIds.map fun id => (id, edges.sourcesOf id)

/-- The nodes that read from each node. -/
def dependents : List (String × List String) :=
  let edges := g.edges settings
  g.nodeIds.map fun id => (id, edges.targetsOf id)

/-- Whether any connection names a node, be it an edge or not. -/
def isMentioned (id : String) : Bool :=
  g.connections.any fun c => c.sourceId == id || c.targetId == id

/-- The nodes that can be put in order: first the mentioned ones, then the others. -/
def placeable : List String :=
  let edges := g.edges settings
  let mentioned := g.nodeIds.filter g.isMentioned
  let alone := g.nodeIds.filter fun id => !g.isMentioned id
  let degrees := g.nodeIds.map fun id => (id, (edges.sourcesOf id).length)
  drain edges degrees [] (mentioned.filter fun id => (edges.sourcesOf id).isEmpty) ++ alone

/-- The order of execution, or the nodes that no order can hold. -/
def executionOrder : Except (List String) (List String) :=
  let placed := g.placeable settings
  if placed.length = g.nodeIds.length then .ok placed
  else .error (g.nodeIds.filter fun id => !placed.contains id)

/-- The changed ids and every node that depends on one of them, nearest first. -/
def affected (changed : List String) : List String :=
  flood (g.edges settings) (g.nodeIds.filter fun id => !changed.contains id) [] (distinct changed)

end Graph

end ShaderGraph
