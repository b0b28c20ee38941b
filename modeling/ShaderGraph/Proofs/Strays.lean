import ShaderGraph.Proofs.ExecutionOrder

/-!
# Stray connections

A connection is stray if its source is neither a virtual one nor a node of the graph. Stray
connections are no edges; all they do to the order of execution is that they mention their targets,
so that a node that nothing else mentions stands with the others rather than behind them. Such a
node has no edges, and the loop that takes out free nodes passes over it without a trace
(`drain_filter`). So the nodes with edges come in one order, whatever stray connections there are.
-/

namespace ShaderGraph

/-! ## Nodes without edges -/

section Filter

variable {p : String → Bool}

/-- Nodes of a class that are released join the others of that class. -/
theorem Degrees.release_filter {ids : List String} (hids : ∀ id ∈ ids, p id = true)
    (degrees : Degrees) (queue : List String) :
    degrees.release ids (queue.filter p)
      = ((degrees.release ids queue).1, (degrees.release ids queue).2.filter p) := by
  induction ids generalizing degrees queue with
  | nil => rfl
  | cons id rest ih =>
    obtain ⟨hid, hrest⟩ := List.forall_mem_cons.1 hids
    rw [release, release]
    cases (lower id degrees).2 with
    | false => exact ih hrest _ _
    | true =>
      have hjoin : queue.filter p ++ [id] = (queue ++ [id]).filter p := by
        rw [List.filter_append, List.filter_cons_of_pos hid, List.filter_nil]
      simp only [if_true, hjoin]
      exact ih hrest _ _

/-- **Nodes without edges can be left out of the loop**, and nothing else changes. -/
theorem drain_filter {edges : Edges} (h : ∀ u v, (u, v) ∈ edges → p u = true ∧ p v = true)
    (degrees : Degrees) (placed queue : List String) :
    (drain edges degrees placed queue).filter p
      = drain edges degrees (placed.filter p) (queue.filter p) := by
  fun_induction drain edges degrees placed queue with
  | case1 degrees placed => rw [List.filter_nil, drain]
  | case2 degrees placed id queue released ih =>
    have htargets : ∀ v ∈ edges.targetsOf id, p v = true :=
      fun v hv => (h id v (Edges.mem_targetsOf.1 hv)).2
    rw [ih, List.filter_append]
    cases hid : p id with
    | true =>
      rw [List.filter_cons_of_pos hid, List.filter_cons_of_pos hid, List.filter_nil, drain,
        degrees.release_filter htargets]
    | false =>
      -- without edges there is nothing to release
      have hnone : edges.targetsOf id = [] := by
        refine List.eq_nil_iff_forall_not_mem.2 fun v hv => ?_
        rw [(h id v (Edges.mem_targetsOf.1 hv)).1] at hid
        cases hid
      have hreleased : released = (degrees, queue) := by
        simp only [released, hnone, Degrees.release]
      rw [List.filter_cons_of_neg (by simp [hid]), List.filter_cons_of_neg (by simp [hid]),
        List.filter_nil, List.append_nil, hreleased]

end Filter

/-- Among the elements of a class, places compare as in the whole list. -/
theorem idxOf_filter_lt_iff {p : String → Bool} {items : List String} {u v : String}
    (hu : p u = true) (hv : p v = true) :
    (items.filter p).idxOf u < (items.filter p).idxOf v ↔ items.idxOf u < items.idxOf v := by
  induction items with
  | nil => simp
  | cons x rest ih =>
    by_cases hx : p x = true
    · rw [List.filter_cons_of_pos hx, List.idxOf_cons, List.idxOf_cons, List.idxOf_cons,
        List.idxOf_cons]
      cases x == u <;> cases x == v <;> simp [ih]
    · have hxu : (x == u) = false := beq_false_of_ne fun heq => hx (heq ▸ hu)
      have hxv : (x == v) = false := beq_false_of_ne fun heq => hx (heq ▸ hv)
      rw [List.filter_cons_of_neg hx, ih, List.idxOf_cons, List.idxOf_cons, hxu, hxv]
      simp

namespace Graph

variable {settings : Settings} {g g' : Graph} {id u v : String}

/-- Whether the source of a connection is virtual or a node of the graph. -/
def hasSource (settings : Settings) (g : Graph) (c : Connection) : Bool :=
  settings.isVirtual c.sourceId || g.hasNode c.sourceId

/-- Two graphs that differ in stray connections only. -/
structure SameButStrays (settings : Settings) (g g' : Graph) : Prop where
  nodes : g'.nodes = g.nodes
  lanes : g'.lanes = g.lanes
  connections : g'.connections.filter (g.hasSource settings)
    = g.connections.filter (g.hasSource settings)

/-- Whether a node is an end of some edge. -/
def hasEdge (settings : Settings) (g : Graph) (id : String) : Bool :=
  (g.edges settings).any fun e => e.1 == id || e.2 == id

theorem hasEdge_ends (h : (u, v) ∈ g.edges settings) :
    g.hasEdge settings u = true ∧ g.hasEdge settings v = true :=
  ⟨List.any_eq_true.2 ⟨_, h, by simp⟩, List.any_eq_true.2 ⟨_, h, by simp⟩⟩

theorem isMentioned_of_hasEdge (h : g.hasEdge settings id = true) : g.isMentioned id = true := by
  obtain ⟨e, he, hid⟩ := List.any_eq_true.1 h
  have hfeeds := mem_edges.1 he
  rcases Bool.or_eq_true_iff.1 hid with hid | hid
  · exact beq_iff_eq.1 hid ▸ hfeeds.source_mentioned
  · exact beq_iff_eq.1 hid ▸ hfeeds.target_mentioned

/-- **The nodes with edges in their order**: the loop, run for them alone. -/
theorem filter_hasEdge_placeable (settings : Settings) (g : Graph) :
    (g.placeable settings).filter (g.hasEdge settings)
      = drain (g.edges settings) (g.firstState settings).degrees []
          ((g.nodeIds.filter (g.hasEdge settings)).filter fun id =>
            ((g.edges settings).sourcesOf id).isEmpty) := by
  have halone :
      (g.nodeIds.filter fun id => !g.isMentioned id).filter (g.hasEdge settings) = [] := by
    refine List.filter_eq_nil_iff.2 fun id hid hedge => ?_
    have hnot := (List.mem_filter.1 hid).2
    rw [isMentioned_of_hasEdge hedge] at hnot
    cases hnot
  have hmentioned : (g.nodeIds.filter g.isMentioned).filter (g.hasEdge settings)
      = g.nodeIds.filter (g.hasEdge settings) := by
    rw [List.filter_filter]
    refine List.filter_congr fun id _ => ?_
    cases hedge : g.hasEdge settings id with
    | false => rfl
    | true => rw [isMentioned_of_hasEdge hedge, Bool.and_true]
  rw [placeable, List.filter_append, halone, List.append_nil,
    drain_filter fun u v huv => hasEdge_ends huv, List.filter_comm, hmentioned]
  rfl

namespace SameButStrays

variable (h : g.SameButStrays settings g')

include h

theorem nodeIds_eq : g'.nodeIds = g.nodeIds := by
  rw [nodeIds, nodeIds, h.nodes]

theorem hasNode_eq (id : String) : g'.hasNode id = g.hasNode id := by
  rw [hasNode, hasNode, h.nodes]

/-- What is asked only of connections that are not stray is asked of the same ones. -/
theorem filter_connections {p : Connection → Bool}
    (hp : ∀ c, p c = true → g.hasSource settings c = true) :
    g'.connections.filter p = g.connections.filter p := by
  have hboth : ∀ connections : List Connection,
      connections.filter p = (connections.filter (g.hasSource settings)).filter p := by
    intro connections
    rw [List.filter_filter]
    refine List.filter_congr fun c _ => ?_
    cases hc : p c with
    | false => rfl
    | true => rw [hp c hc, Bool.and_true]
  rw [hboth, hboth g.connections, h.connections]

theorem edges_eq : g'.edges settings = g.edges settings := by
  have hedge : g'.isEdge settings = g.isEdge settings := by
    funext c
    rw [isEdge, isEdge, h.hasNode_eq, h.hasNode_eq]
  rw [edges, edges, hedge, h.filter_connections]
  intro c hc
  simp only [isEdge, Bool.and_eq_true] at hc
  rw [hasSource, hc.1.2, Bool.or_true]

/-- The nodes with edges come in the same order. -/
theorem filter_placeable_eq : (g'.placeable settings).filter (g.hasEdge settings)
    = (g.placeable settings).filter (g.hasEdge settings) := by
  have hedges : g'.hasEdge settings = g.hasEdge settings := by
    funext id
    rw [hasEdge, hasEdge, h.edges_eq]
  rw [filter_hasEdge_placeable, ← hedges, filter_hasEdge_placeable, hedges]
  simp only [firstState, h.edges_eq, h.nodeIds_eq]

theorem mem_placeable_iff (hid : id ∈ g.nodeIds) :
    id ∈ g'.placeable settings ↔ id ∈ g.placeable settings := by
  cases hedge : g.hasEdge settings id with
  | true =>
    have hmem : ∀ items : List String, id ∈ items.filter (g.hasEdge settings) ↔ id ∈ items := by
      intro items
      rw [List.mem_filter, hedge, and_iff_left rfl]
    rw [← hmem, h.filter_placeable_eq, hmem]
  | false =>
    -- nothing feeds a node without edges, so it can be placed in both
    have hnone : ∀ u, (u, id) ∉ g.edges settings := by
      intro u hu
      rw [(hasEdge_ends hu).2] at hedge
      cases hedge
    have hplaced : ∀ a : Graph, a.edges settings = g.edges settings → id ∈ a.nodeIds →
        id ∈ a.placeable settings := by
      intro a hedges hida
      refine (Graph.mem_placeable_iff hida).2 fun u hu => absurd (mem_edges.2 hu) ?_
      rw [hedges]
      exact hnone u
    exact iff_of_true (hplaced g' h.edges_eq (h.nodeIds_eq ▸ hid)) (hplaced g rfl hid)

/-- **Stray connections neither make nor mend a cycle**, and the ends of edges keep their order. -/
theorem executionOrder {order : List String} (hsort : g.executionOrder settings = .ok order) :
    g'.executionOrder settings = .ok (g'.placeable settings) ∧
    ∀ u v, g.hasEdge settings u = true → g.hasEdge settings v = true →
      ((g'.placeable settings).idxOf u < (g'.placeable settings).idxOf v
        ↔ order.idxOf u < order.idxOf v) := by
  obtain ⟨hall, rfl⟩ := executionOrder_eq_ok_iff.1 hsort
  refine ⟨executionOrder_eq_ok_iff.2 ⟨fun id hid => ?_, rfl⟩, fun u v hu hv => ?_⟩
  · rw [h.nodeIds_eq] at hid
    exact (h.mem_placeable_iff hid).2 (hall id hid)
  · rw [← idxOf_filter_lt_iff hu hv, h.filter_placeable_eq, idxOf_filter_lt_iff hu hv]

end SameButStrays

end Graph

end ShaderGraph
