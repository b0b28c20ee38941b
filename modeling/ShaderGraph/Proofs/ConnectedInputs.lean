import ShaderGraph.Proofs.CleanChecks
import ShaderGraph.Proofs.References

/-!
# Connected inputs

In a graph without problems nothing is written in a simpler way than the graph asks. What every
connection reads is declared by the node it comes from, so no variable is declared for the sake of a
connection; an input that is connected takes the connected value; and the value is at most widened
on its way. Each check passes over connections that the other one reports, so both are needed.
-/

namespace ShaderGraph

/-! ## Ends of connections -/

theorem targetId_of_endsAt {c : Connection} {nodeId : String} {target : Target}
    (h : c.endsAt nodeId target = true) : c.targetId = nodeId := by
  simp only [Connection.endsAt, Bool.and_eq_true, beq_iff_eq] at h
  exact h.1

theorem mem_of_portConnection? {g : Graph} {nodeId port : String} {c : Connection}
    (h : g.portConnection? nodeId port = some c) : c ∈ g.connections ∧ c.targetId = nodeId := by
  have hends := List.find?_some h
  exact ⟨List.mem_of_find?_eq_some h, targetId_of_endsAt hends⟩

variable {catalog : Catalog} {settings : Settings} {g : Graph} {order : List String}

namespace Plan

variable {plan : Plan} {c : Connection} {n : TypedNode} {id : String}

/-! ## Nodes of a plan -/

theorem typedNode?_eq_some_iff : plan.typedNode? id = some n ↔
    plan.graph.node? id = some n.node ∧ plan.catalog.find? n.node.type = some n.type := by
  simp only [typedNode?, Option.bind_eq_some_iff, Option.map_eq_some_iff]
  constructor
  · rintro ⟨node, hnode, t, ht, rfl⟩
    exact ⟨hnode, ht⟩
  · rintro ⟨hnode, ht⟩
    exact ⟨n.node, hnode, n.type, ht, rfl⟩

theorem id_of_typedNode? (h : plan.typedNode? id = some n) : n.node.id = id := by
  simpa using List.find?_some (typedNode?_eq_some_iff.1 h).1

/-- The nodes of a plan are found by their own ids. -/
theorem typedNode?_of_mem_nodes (h : n ∈ plan.nodes) : plan.typedNode? n.node.id = some n := by
  obtain ⟨id, -, hid⟩ := List.mem_filterMap.1 h
  have hnode := (typedNode?_eq_some_iff.1 hid).1
  have heq : n.node.id = id := by simpa using List.find?_some hnode
  rw [heq, hid]

/-- The type of a node of the graph is that of its node in the plan. -/
theorem exists_typedNode?_of_nodeType? {t : NodeType}
    (h : plan.graph.nodeType? plan.catalog id = some t) :
    ∃ n, plan.typedNode? id = some ⟨n, t⟩ ∧ n.id = id := by
  obtain ⟨n, hn, ht⟩ := Option.bind_eq_some_iff.1 h
  exact ⟨n, typedNode?_eq_some_iff.2 ⟨hn, ht⟩, by simpa using List.find?_some hn⟩

/-- An output of known type is declared by its node. -/
theorem mem_own_of_outputType? (hnodes : ∀ n, plan.typedNode? id = some n → n ∈ plan.nodes)
    {name : String} {type : ValueType} (h : plan.outputType? id name = some type) :
    Symbol.output id name ∈ plan.ownDeclarations.map Declaration.symbol := by
  obtain ⟨n, hn, htype⟩ := Option.bind_eq_some_iff.1 h
  obtain ⟨port, hport, -⟩ := Option.map_eq_some_iff.1 htype
  have hname : port.name = name := by simpa using List.find?_some hport
  have hd : Declaration.variable port.type (Symbol.output n.node.id port.name)
      ∈ Declaration.ofNode n :=
    List.mem_append_left _ (List.mem_map.2 ⟨port, List.mem_of_find?_eq_some hport, rfl⟩)
  have hown := mem_own_of_ofNode (hnodes n hn) hd
  rwa [Declaration.symbol, id_of_typedNode? hn, hname] at hown

/-! ## What a connection carries -/

/-- A connection carries the uniform of its virtual source, a float, or the variable of an output
with the type of the output. -/
inductive Carries (plan : Plan) (c : Connection) : String → ValueType → Prop where
  | virtual {symbol : String} (hvirtual : plan.isVirtual c.sourceId = true)
      (h : plan.uniforms.virtual? c.sourceId = some symbol) : Carries plan c symbol .float
  | output {type : ValueType} (hreal : plan.isVirtual c.sourceId = false)
      (htype : plan.outputType? c.sourceId c.sourcePort = some type)
      (hdeclared : Symbol.output c.sourceId c.sourcePort ∈ plan.declared) :
      Carries plan c (Symbol.output c.sourceId c.sourcePort) type

/-- What a connection carries is what an input takes from it, converted to its own type. -/
theorem connectedInput_of_carries {symbol : String} {type : ValueType}
    (h : plan.Carries c symbol type) (port : Port) :
    plan.connectedInput c port = pure (some (Glsl.convert symbol type port.type)) := by
  cases h with
  | virtual hvirtual h => rw [connectedInput, if_pos hvirtual, h, Option.map_some]
  | output hreal htype hdeclared =>
    have hdeclares : plan.declares (Symbol.output c.sourceId c.sourcePort) = true := by
      simpa [declares] using hdeclared
    rw [connectedInput, if_neg (by simp [hreal])]
    simp only [hdeclares, if_true, htype, Option.getD_some]

/-! ## Connections of known type -/

section Order

variable (horder : g.executionOrder settings = .ok order)

include horder

/-- A node of known type has its place in the plan. -/
theorem mem_nodes_of_typedNode?
    (h : (compiling catalog settings g order).typedNode? id = some n) :
    n ∈ (compiling catalog settings g order).nodes := by
  have hnode : g.node? id = some n.node := (typedNode?_eq_some_iff.1 h).1
  have hid : id ∈ g.nodeIds :=
    Graph.isSome_node?_iff.1 (Option.isSome_iff_exists.2 ⟨n.node, hnode⟩)
  exact List.mem_filterMap.2 ⟨id, (Graph.mem_executionOrder horder).2 hid, h⟩

theorem exists_mem_nodes_of_nodeType? {t : NodeType} (h : g.nodeType? catalog id = some t) :
    ∃ n, n.id = id ∧ (⟨n, t⟩ : TypedNode) ∈ (compiling catalog settings g order).nodes ∧
      (compiling catalog settings g order).typedNode? id = some ⟨n, t⟩ := by
  obtain ⟨n, htyped, hid⟩ : ∃ n, (compiling catalog settings g order).typedNode? id = some ⟨n, t⟩
      ∧ n.id = id := exists_typedNode?_of_nodeType? h
  exact ⟨n, hid, mem_nodes_of_typedNode? horder htyped, htyped⟩

/-- A connection whose type is known reads what its source declares for an output of that type. -/
theorem output_of_sourceType? {type : ValueType} (hreal : settings.isVirtual c.sourceId = false)
    (h : sourceType? catalog settings g c = some (.ok type)) :
    (compiling catalog settings g order).outputType? c.sourceId c.sourcePort = some type ∧
      sourceSymbol c ∈
        (compiling catalog settings g order).ownDeclarations.map Declaration.symbol := by
  obtain ⟨t, port, ht, hport, rfl⟩ := exists_output_of_sourceType? hreal h
  obtain ⟨n, -, -, htyped⟩ := exists_mem_nodes_of_nodeType? horder ht
  have htype : (compiling catalog settings g order).outputType? c.sourceId c.sourcePort
      = some port.type := by
    rw [outputType?, htyped, Option.bind_some, hport]
    rfl
  exact ⟨htype, mem_own_of_outputType? (fun _ hn => mem_nodes_of_typedNode? horder hn) htype⟩

/-- A connection whose type is known carries a value of that type. -/
theorem carries_of_sourceType? {type : ValueType} (hc : c ∈ g.connections)
    (h : sourceType? catalog settings g c = some (.ok type)) :
    ∃ symbol, (compiling catalog settings g order).Carries c symbol type := by
  cases hvirtual : settings.isVirtual c.sourceId with
  | true =>
    rw [sourceType?_of_isVirtual hvirtual] at h
    obtain rfl := Except.ok.inj (Option.some.inj h)
    obtain ⟨symbol, hsymbol⟩ := (complete_compiling horder).virtuals c hc hvirtual
    exact ⟨symbol, .virtual hvirtual hsymbol⟩
  | false =>
    obtain ⟨htype, hown⟩ := output_of_sourceType? horder hvirtual h
    exact ⟨_, .output hvirtual htype (mem_symbols_of_mem_own hown)⟩

end Order

/-! ## Graphs without problems -/

section Clean

variable (hg : CleanGraph catalog settings g) (htypes : checkTypes catalog settings g = [])

include hg

/-- Every node of a clean graph has its place in the plan. -/
theorem exists_mem_nodes_of_clean (horder : g.executionOrder settings = .ok order) {n : Node}
    (hn : n ∈ g.nodes) :
    ∃ t, (⟨n, t⟩ : TypedNode) ∈ (compiling catalog settings g order).nodes := by
  obtain ⟨t, ht⟩ := (hg.nodes n hn).typed
  have htyped : (compiling catalog settings g order).typedNode? n.id = some ⟨n, t⟩ :=
    typedNode?_eq_some_iff.2 ⟨hg.node?_eq hn, ht⟩
  have hmem : n.id ∈ order :=
    (Graph.mem_executionOrder horder).2 (Graph.mem_nodeIds.2 ⟨n, hn, rfl⟩)
  exact ⟨t, List.mem_filterMap.2 ⟨n.id, hmem, htyped⟩⟩

/-- The connection into an input is the only one. -/
theorem portConnection?_eq {nodeId port : String} (hc : c ∈ g.connections)
    (hends : c.endsAt nodeId (.port port) = true) : g.portConnection? nodeId port = some c := by
  obtain ⟨d, hd⟩ : ∃ d, g.portConnection? nodeId port = some d :=
    Option.isSome_iff_exists.1 (List.find?_isSome.2 ⟨c, hc, hends⟩)
  have hdends := List.find?_some hd
  rw [hd, hg.eq_of_endsAt hc (List.mem_of_find?_eq_some hd) hends hdends]

include htypes

/-- **No variable is declared for the sake of a connection.** -/
theorem undeclaredReads_eq_nil (horder : g.executionOrder settings = .ok order) :
    (ofGraph catalog settings g order).undeclaredReads = [] := by
  refine List.eq_nil_iff_forall_not_mem.2 fun c hc => ?_
  obtain ⟨hc', hreads⟩ := List.mem_filter.1 ((distinctOn_sublist _).subset hc)
  have hreal : settings.isVirtual c.sourceId = false := by
    simp only [readsNode, Bool.and_eq_true, Bool.not_eq_true'] at hreads
    exact hreads.1.1
  obtain ⟨type, t, target, hsource, -⟩ := hg.typed_of_checkTypes htypes hc'
  exact not_mem_own_of_mem_undeclaredReads hc (output_of_sourceType? horder hreal hsource).2

/-- What goes into a port is of a type that widens to it, given that the ports of a type have names
of their own. -/
theorem exists_sourceType?_widensTo (hnames : (n.type.inputs.map (·.name)).Nodup)
    (hn : g.nodeType? catalog n.node.id = some n.type) {port : Port} (hport : port ∈ n.type.inputs)
    (hc : c ∈ g.connections) (hends : c.endsAt n.node.id (.port port.name) = true) :
    ∃ type, sourceType? catalog settings g c = some (.ok type) ∧
      type.widensTo port.type = true := by
  simp only [Connection.endsAt, Bool.and_eq_true, beq_iff_eq] at hends
  obtain ⟨type, t, target, hsource, ht, htarget, hcheck⟩ := hg.typed_of_checkTypes htypes hc
  rw [hends.1, hn] at ht
  obtain rfl := Option.some.inj ht
  rw [hends.2] at htarget
  obtain rfl := Option.some.inj htarget
  obtain ⟨found, hfound, hwidens⟩ := widensTo_of_checkTarget hcheck
  have hname : found.name = port.name := by simpa using List.find?_some hfound
  -- the check looks the port up by its name, which no other input has
  obtain rfl : found = port :=
    List.inj_on_of_nodup_map hnames (List.mem_of_find?_eq_some hfound) hport hname
  exact ⟨type, hsource, hwidens⟩

end Clean

/-- An input takes what is connected to it, whatever its fallback. -/
theorem find?_inputs_of_connected (hnames : (n.type.inputs.map (·.name)).Nodup) {port : Port}
    (hport : port ∈ n.type.inputs) {value : String}
    (h : plan.connected n.node port = pure (some value)) (params : Dict Resolved)
    (coordinates : Option Coordinates) :
    (plan.inputs n params coordinates).value.find? port.name = some value := by
  have hvalue : (plan.input n.node params coordinates port).value = value := by
    rw [input, h]
    rfl
  rw [inputs]
  simp only [Warned.value_bind, Warned.value_each, Warned.value_pure, List.zip_map']
  refine Dict.find?_ofList_of_mem ?_ (List.mem_map.2 ⟨port, hport, by rw [hvalue]⟩)
  rw [List.map_map]
  exact hnames

end Plan

/-- The types of a light and of a screen that shows one. -/
def Catalog.stage : Catalog := .ofList
  [(NodeType.bare "lamp" "source").withOutput (.plain "light" .vec2),
    ((NodeType.bare "screen" "output").withInput (.plain "color" .vec4)).withInput
      (.plain "level" .float)]

/-- A graph without problems: a screen shows a light, at a level from outside. -/
def Graph.lit : Graph where
  id := "lit"
  name := "lit"
  version := formatVersion
  nodes := [.bare "s" "screen", .bare "l" "lamp"]
  connections := [.between "1" ("l", "light") "s" (.port "color"),
    .between "2" ("virtual:beat", "out") "s" (.port "level")]
  lanes := []

end ShaderGraph
