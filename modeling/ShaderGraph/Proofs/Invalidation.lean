import ShaderGraph.Proofs.Affected
import ShaderGraph.Proofs.Agreement

/-!
# What need not be written again

A graph is retuned if some of its nodes get other settings and other automation. Distance functions
inline what they depend on, so a change of one node may show in many of them. It shows only in those
of affected nodes: whatever inlining visits from a node that is not affected is not affected either,
for the edges that affect are the connections that inlining follows, and more.
-/

namespace ShaderGraph

open Relation

variable {changed : List String}

/-! ## Other settings for some nodes -/

/-- The two nodes are of one id and type, and the same if the id is not listed. -/
structure Node.Retunes (changed : List String) (n n' : Node) : Prop where
  id : n'.id = n.id
  type : n'.type = n.type
  settings : n.id ∉ changed → n' = n

/-- The two graphs have the same connections and nodes, apart from the settings and the automation
of the nodes that are listed. -/
structure Graph.Retunes (changed : List String) (g g' : Graph) : Prop where
  connections : g'.connections = g.connections
  nodes : List.Forall₂ (Node.Retunes changed) g.nodes g'.nodes
  lanes : (g'.lanes.filter fun lane => decide (lane.nodeId ∉ changed))
    = g.lanes.filter fun lane => decide (lane.nodeId ∉ changed)

/-- The names of a node's variables depend on its id and type only. -/
theorem Declaration.map_symbol_ofNode (n : TypedNode) {n' : Node} (h : n'.id = n.node.id) :
    (ofNode ⟨n', n.type⟩).map symbol = (ofNode n).map symbol := by
  simp only [ofNode, ofOutputs, ofArrays, List.map_append, List.map_map, Function.comp_def, symbol,
    h]

theorem Node.Retunes.symm {n n' : Node} (h : n.Retunes changed n') : n'.Retunes changed n :=
  ⟨h.id.symm, h.type.symm, fun hid => (h.settings (h.id ▸ hid)).symm⟩

namespace Graph.Retunes

variable {catalog : Catalog} {settings : Settings} {g g' : Graph} {order : List String}
  {id : String}

theorem symm (h : g.Retunes changed g') : g'.Retunes changed g :=
  ⟨h.connections.symm, (List.Forall₂.flip h.nodes).imp fun _ _ hn => hn.symm, h.lanes.symm⟩

variable (h : g.Retunes changed g')

include h

/-! ## The order and what is affected -/

theorem ids_eq : g'.nodes.map (·.id) = g.nodes.map (·.id) := by
  have hids : List.Forall₂ (· = ·) (g.nodes.map (·.id)) (g'.nodes.map (·.id)) :=
    List.forall₂_map_left_iff.2
      (List.forall₂_map_right_iff.2 (h.nodes.imp fun _ _ hn => hn.id.symm))
  exact (List.forall₂_eq_eq_eq ▸ hids).symm

theorem nodeIds_eq : g'.nodeIds = g.nodeIds := by
  rw [nodeIds, nodeIds, h.ids_eq]

theorem edges_eq : g'.edges settings = g.edges settings := by
  have hnode : ∀ id, g'.hasNode id = g.hasNode id := by
    intro id
    rw [Bool.eq_iff_iff, hasNode_iff, hasNode_iff, h.nodeIds_eq]
  have hedge : g'.isEdge settings = g.isEdge settings := by
    funext c
    rw [isEdge, isEdge, hnode, hnode]
  rw [edges, edges, h.connections, hedge]

theorem executionOrder_eq : g'.executionOrder settings = g.executionOrder settings := by
  have hmentioned : g'.isMentioned = g.isMentioned := by
    funext id
    rw [isMentioned, isMentioned, h.connections]
  have hplaceable : g'.placeable settings = g.placeable settings := by
    simp only [placeable, h.edges_eq, h.nodeIds_eq, hmentioned]
  rw [executionOrder, executionOrder, hplaceable, h.nodeIds_eq]

theorem affected_eq (ids : List String) : g'.affected settings ids = g.affected settings ids := by
  rw [affected, affected, h.edges_eq, h.nodeIds_eq]

/-! ## Nodes, lanes and symbols -/

/-- What is found under an id is retuned. -/
theorem exists_node? {n : Node} (hn : g.node? id = some n) :
    ∃ n', g'.node? id = some n' ∧ n.Retunes changed n' := by
  have hnodes := h.nodes
  rw [node?] at hn ⊢
  generalize g.nodes = nodes at hnodes hn
  generalize g'.nodes = nodes' at hnodes
  induction hnodes with
  | nil => cases hn
  | @cons first first' rest rest' hfirst _ ih =>
    rw [List.find?_cons] at hn ⊢
    rw [hfirst.id]
    cases hid : first.id == id with
    | true =>
      rw [hid] at hn
      obtain rfl := Option.some.inj hn
      exact ⟨first', rfl, hfirst⟩
    | false =>
      rw [hid] at hn
      exact ih hn

theorem node?_eq (hid : id ∉ changed) : g'.node? id = g.node? id := by
  have hsame : ∀ {a b : Graph}, a.Retunes changed b → ∀ n, a.node? id = some n →
      b.node? id = some n := by
    intro a b hab n hn
    obtain ⟨n', hn', hretunes⟩ := hab.exists_node? hn
    have hnid : n.id = id := by simpa using List.find?_some hn
    rw [hn', hretunes.settings (hnid ▸ hid)]
  exact Option.ext fun n => ⟨hsame h.symm n, hsame h n⟩

theorem lane?_eq (hid : id ∉ changed) (name : String) : g'.lane? id name = g.lane? id name := by
  have hfilter : ∀ a : Graph, a.lane? id name
      = (a.lanes.filter fun lane => decide (lane.nodeId ∉ changed)).find?
          fun lane => lane.nodeId == id && lane.paramName == name := by
    intro a
    rw [lane?, List.find?_filter]
    congr 1
    funext lane
    rw [Bool.eq_iff_iff]
    by_cases heq : lane.nodeId = id
    · simp [heq, hid]
    · simp [heq]
  rw [hfilter, hfilter, h.lanes]

/-- The uniforms have the same keys and symbols. -/
theorem map_uniforms_eq (catalog : Catalog) :
    (g'.nodes.flatMap (UniformTable.ofNode catalog)).map (fun u => (u.key, u.name))
      = (g.nodes.flatMap (UniformTable.ofNode catalog)).map fun u => (u.key, u.name) := by
  rw [List.map_flatMap, List.map_flatMap]
  have hnodes := h.nodes
  generalize g.nodes = nodes at hnodes
  generalize g'.nodes = nodes' at hnodes
  induction hnodes with
  | nil => rfl
  | @cons n n' rest rest' hn _ ih =>
    have hfirst : (UniformTable.ofNode catalog n').map (fun u => (u.key, u.name))
        = (UniformTable.ofNode catalog n).map fun u => (u.key, u.name) := by
      rw [UniformTable.ofNode, UniformTable.ofNode, hn.type]
      cases catalog.find? n.type with
      | none => rfl
      | some t => simp only [List.map_map, Function.comp_def, Uniform.ofParam, Uniform.key, hn.id]
    rw [List.flatMap_cons, List.flatMap_cons, hfirst, ih]

theorem param?_eq (catalog : Catalog) (settings : Settings) (id name : String) :
    (UniformTable.ofGraph catalog settings g').param? id name
      = (UniformTable.ofGraph catalog settings g).param? id name := by
  rw [UniformTable.param?_eq, UniformTable.param?_eq]
  cases hon : settings.parameterUniforms with
  | false =>
    rw [UniformTable.uniform?_ofGraph_of_off hon, UniformTable.uniform?_ofGraph_of_off hon]
  | true =>
    have hfound : ∀ uniforms : List Uniform,
        (uniforms.find? fun u => decide (u.key = (id, name))).map (·.name)
          = ((uniforms.map fun u => (u.key, u.name)).find? fun x => decide (x.1 = (id, name))).map
            (·.2) := by
      intro uniforms
      rw [List.find?_map, Option.map_map]
      rfl
    rw [UniformTable.uniform?_ofGraph hon, UniformTable.uniform?_ofGraph hon, hfound, hfound,
      h.map_uniforms_eq]

theorem virtuals_eq (catalog : Catalog) (settings : Settings) :
    (UniformTable.ofGraph catalog settings g').virtuals
      = (UniformTable.ofGraph catalog settings g).virtuals := by
  simp only [UniformTable.ofGraph, h.connections]

theorem mem_symbols {symbol : String}
    (hsymbol : symbol ∈ (Plan.ofGraph catalog settings g order).symbols) :
    symbol ∈ (Plan.ofGraph catalog settings g' order).symbols := by
  rw [Plan.mem_symbols_iff] at hsymbol ⊢
  rcases hsymbol with ⟨n, hn, hsymbol⟩ | ⟨c, hc, hreads, heq⟩
  · obtain ⟨id, hid, hnode⟩ := List.mem_filterMap.1 hn
    obtain ⟨hnode, htype⟩ := Plan.typedNode?_eq_some_iff.1 hnode
    obtain ⟨n', hn', hretunes⟩ := h.exists_node? hnode
    have htyped : (Plan.ofGraph catalog settings g' order).typedNode? id = some ⟨n', n.type⟩ :=
      Plan.typedNode?_eq_some_iff.2 ⟨hn', hretunes.type ▸ htype⟩
    refine .inl ⟨⟨n', n.type⟩, List.mem_filterMap.2 ⟨id, hid, htyped⟩, ?_⟩
    rw [Declaration.map_symbol_ofNode n hretunes.id]
    exact hsymbol
  · obtain ⟨hreal, hsome⟩ := Bool.and_eq_true_iff.1 hreads
    obtain ⟨n, hn⟩ := Option.isSome_iff_exists.1 hsome
    obtain ⟨n', hn', -⟩ := h.exists_node? hn
    refine .inr ⟨c, h.connections.symm ▸ hc, Bool.and_eq_true_iff.2 ⟨hreal, ?_⟩, heq⟩
    exact Option.isSome_iff_exists.2 ⟨n', hn'⟩

theorem declares_eq (catalog : Catalog) (settings : Settings) (order : List String)
    (symbol : String) :
    (Plan.compiling catalog settings g' order).declares symbol
      = (Plan.compiling catalog settings g order).declares symbol := by
  rw [Bool.eq_iff_iff, Plan.declares, Plan.declares, List.contains_iff_mem, List.contains_iff_mem]
  exact ⟨h.symm.mem_symbols, h.mem_symbols⟩

/-! ## Nodes that are not affected -/

/-- **The plans agree on what is not affected.** -/
theorem agree (catalog : Catalog) (settings : Settings) (order : List String) :
    Plan.Agree (fun id => id ∈ g.nodeIds ∧ id ∉ g.affected settings changed)
      (Plan.compiling catalog settings g order) (Plan.compiling catalog settings g' order) := by
  have hchanged : ∀ id, id ∉ g.affected settings changed → id ∉ changed :=
    fun id hid hmem => hid (mem_affected.2 ⟨id, hmem, .refl⟩)
  have htyped : ∀ id, g'.node? id = g.node? id →
      (Plan.compiling catalog settings g' order).typedNode? id
        = (Plan.compiling catalog settings g order).typedNode? id :=
    fun id hid => congrArg (fun m => Option.bind m _) hid
  refine ⟨rfl, h.connections, fun id => ?_,
    fun id hid => htyped id (h.node?_eq (hchanged id hid.2)), fun _ _ => rfl,
    fun id name hid => h.lane?_eq (hchanged id hid.2) name,
    fun id name _ => h.param?_eq catalog settings id name, fun c hc htarget hreal => ?_⟩
  · show ((UniformTable.ofGraph catalog settings g').virtual? id)
      = (UniformTable.ofGraph catalog settings g).virtual? id
    rw [UniformTable.virtual?, UniformTable.virtual?, h.virtuals_eq]
  · by_cases hsource : c.sourceId ∈ g.nodeIds
    · -- the connection is an edge, so a change of the source would affect the target
      have hfeeds : g.Feeds settings c.sourceId c.targetId :=
        ⟨hreal, mem_nodeIds.1 hsource, mem_nodeIds.1 htarget.1, c, hc, rfl, rfl⟩
      have hnot : c.sourceId ∉ g.affected settings changed := by
        intro hmem
        obtain ⟨s, hs, hpath⟩ := mem_affected.1 hmem
        exact htarget.2 (mem_affected.2 ⟨s, hs, hpath.tail hfeeds⟩)
      exact ⟨htyped _ (h.node?_eq (hchanged _ hnot)), rfl, h.declares_eq catalog settings order _,
        fun _ => ⟨hsource, hnot⟩⟩
    · have hnone : g.node? c.sourceId = none :=
        Option.not_isSome_iff_eq_none.1 (isSome_node?_iff.not.2 hsource)
      have hnone' : g'.node? c.sourceId = none :=
        Option.not_isSome_iff_eq_none.1 (isSome_node?_iff.not.2 (h.nodeIds_eq ▸ hsource))
      refine ⟨htyped _ (hnone'.trans hnone.symm), rfl, h.declares_eq catalog settings order _,
        fun hsome => ?_⟩
      rw [Plan.typedNode?, show (Plan.compiling catalog settings g order).graph.node? c.sourceId
        = none from hnone] at hsome
      cases hsome

end Graph.Retunes

/-- **Where nothing is affected, no distance function has to be written again.** Take two graphs
with the same connections and nodes that differ in the settings and the automation of the listed
nodes only. They have the same order of execution, if they have one, and the same nodes are
affected. With one library, every marching node that is not affected marches in both, and its
distance and displacement functions have the same texts. The distance functions of a program are
these texts, for its marching nodes in turn. -/
theorem marching_of_not_affected (catalog : Catalog) (settings : Settings) (changed : List String)
    (g g' : Graph) (hretunes : g.Retunes changed g') (lib : Library) (order : List String)
    (hsort : g.executionOrder settings = .ok order) :
    g'.executionOrder settings = .ok order ∧
    g'.affected settings changed = g.affected settings changed ∧
    let plan := Plan.compiling catalog settings g order
    let plan' := Plan.compiling catalog settings g' order
    ((plan.marching lib).value.functions
      = plan.marchers.flatMap fun n => plan.distanceTexts lib n ++ plan.displacementTexts lib n) ∧
    ((plan'.marching lib).value.functions
      = plan'.marchers.flatMap fun n =>
          plan'.distanceTexts lib n ++ plan'.displacementTexts lib n) ∧
    ∀ n ∈ plan.marchers, n.id ∉ g.affected settings changed → n ∈ plan'.marchers ∧
      plan'.distanceTexts lib n = plan.distanceTexts lib n ∧
      plan'.displacementTexts lib n = plan.displacementTexts lib n := by
  refine ⟨hretunes.executionOrder_eq.trans hsort, hretunes.affected_eq changed, ?_⟩
  intro plan plan'
  have hagree := hretunes.agree catalog settings order
  refine ⟨plan.functions_marching lib, plan'.functions_marching lib, fun n hn hnot => ?_⟩
  obtain ⟨hplaced, t, htyped, hmarches⟩ := Plan.mem_marchers_iff.1 hn
  have hshared : n.id ∈ g.nodeIds ∧ n.id ∉ g.affected settings changed :=
    ⟨(Graph.mem_executionOrder hsort).1 hplaced, hnot⟩
  refine ⟨Plan.mem_marchers_iff.2 ⟨hplaced, t, ?_, hmarches⟩,
    hagree.distanceTexts_eq (fun _ _ => rfl) hshared,
    hagree.displacementTexts_eq (fun _ _ => rfl) hshared⟩
  rw [hagree.node n.id hshared]
  exact htyped

/-- Two eyes that look at a shape each, with the first shape and the automation left open. -/
def Graph.gallery (ball : Node) (lanes : List (Lane Float)) : Graph where
  id := "gallery"
  name := "gallery"
  version := formatVersion
  nodes := [.bare "e1" "eye", .bare "e2" "eye", ball, .bare "b2" "shape"]
  connections := [.between "1" ("b1", "d") "e1" (.port "sdf"),
    .between "2" ("b2", "d") "e2" (.port "sdf")]
  lanes := lanes

/-- Another size for the first shape, and a lane for it, are nothing to the second eye. -/
theorem marching_gallery :
    let g := Graph.gallery (.bare "b1" "shape") []
    let g' := Graph.gallery ((Node.bare "b1" "shape").withParam "r" (.number 2))
      [⟨"lane", "b1", "r", []⟩]
    g.Retunes ["b1"] g' ∧ g.executionOrder {} = .ok ["b1", "b2", "e1", "e2"] ∧
    g.affected {} ["b1"] = ["b1", "e1"] ∧
    let plan := Plan.compiling .scene {} g ["b1", "b2", "e1", "e2"]
    let plan' := Plan.compiling .scene {} g' ["b1", "b2", "e1", "e2"]
    plan'.distanceTexts {} (.bare "e2" "eye") = plan.distanceTexts {} (.bare "e2" "eye") ∧
      (plan.distanceTexts {} (.bare "e2" "eye")).length = 1 := by
  intro g g'
  have hretunes : g.Retunes ["b1"] g' := by
    refine ⟨rfl, ?_, by decide⟩
    have hsame : ∀ n : Node, n.Retunes ["b1"] n := fun n => ⟨rfl, rfl, fun _ => rfl⟩
    refine .cons (hsame _) (.cons (hsame _)
      (.cons ⟨rfl, rfl, fun hnot => ?_⟩ (.cons (hsame _) .nil)))
    exact absurd (List.mem_singleton_self "b1") hnot
  have hsort : g.executionOrder {} = .ok ["b1", "b2", "e1", "e2"] := by decide +kernel
  have haffected : g.affected {} ["b1"] = ["b1", "e1"] := by decide +kernel
  refine ⟨hretunes, hsort, haffected, ?_⟩
  intro plan plan'
  obtain ⟨-, -, -, -, hmarchers⟩ :=
    marching_of_not_affected .scene {} ["b1"] g g' hretunes {} _ hsort
  have hmarcher : Node.bare "e2" "eye" ∈ plan.marchers :=
    Plan.mem_marchers_iff.2 ⟨by decide, .eye, rfl, by decide +kernel⟩
  obtain ⟨-, hdistance, -⟩ := hmarchers _ hmarcher (by rw [haffected]; decide)
  exact ⟨hdistance, rfl⟩

end ShaderGraph
