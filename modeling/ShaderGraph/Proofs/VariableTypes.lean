import ShaderGraph.Proofs.OutputVariables

/-!
# Types of variables

What reads an output takes its variable for one of a type: the type of the output if the node has
it, and a float otherwise. The variable is declared elsewhere, for the first node that has such an
output, or as a float for the sake of a connection. Both go by names, and both take the first of
what a name may stand for, so the types agree as soon as no two outputs share a variable. Ids may
be repeated, types unknown, and the outputs of a type may have one name.
-/

namespace ShaderGraph

namespace Plan

variable {plan : Plan} {n : TypedNode} {c : Connection} {nodeId name : String}

/-- The outputs that have variables, each as the id of its node and its name: those of the nodes,
and what connections read from nodes. -/
def namedOutputs (plan : Plan) : List (String × String) :=
  (plan.nodes.flatMap fun n => n.type.outputs.map fun port => (n.node.id, port.name))
    ++ (plan.graph.connections.filter plan.readsNode).map fun c => (c.sourceId, c.sourcePort)

/-- No two of these share a variable. -/
def VariablesApart (plan : Plan) : Prop :=
  ∀ a ∈ plan.namedOutputs, ∀ b ∈ plan.namedOutputs,
    Symbol.output a.1 a.2 = Symbol.output b.1 b.2 → a = b

theorem mem_namedOutputs_of_mem_nodes (hn : n ∈ plan.nodes) {port : Port}
    (hport : port ∈ n.type.outputs) : (n.node.id, port.name) ∈ plan.namedOutputs :=
  List.mem_append_left _ (List.mem_flatMap.2 ⟨n, hn, List.mem_map.2 ⟨port, hport, rfl⟩⟩)

theorem mem_namedOutputs_of_readsNode (hc : c ∈ plan.graph.connections)
    (hreads : plan.readsNode c = true) : (c.sourceId, c.sourcePort) ∈ plan.namedOutputs :=
  List.mem_append_right _ (List.mem_map.2 ⟨c, List.mem_filter.2 ⟨hc, hreads⟩, rfl⟩)

/-! ## What is declared -/

section Apart

variable (hapart : plan.VariablesApart) (hsource : (nodeId, name) ∈ plan.namedOutputs)
  {d : Declaration}

include hapart hsource

/-- A variable is declared first for the first of the outputs that have its name. -/
theorem output?_of_find?_ofNode (hn : n ∈ plan.nodes)
    (h : (Declaration.ofNode n).find? (fun d => decide (d.symbol = Symbol.output nodeId name))
      = some d) :
    n.node.id = nodeId ∧ ∃ port, n.type.output? name = some port ∧
      d = .variable port.type (Symbol.output nodeId name) := by
  have harrays : (Declaration.ofArrays n).find?
      (fun d => decide (d.symbol = Symbol.output nodeId name)) = none := by
    refine List.find?_eq_none.2 fun d hd => ?_
    simpa using symbol_ne_of_mem_ofArrays hd nodeId name
  rw [Declaration.ofNode, List.find?_append, harrays, Option.or_none, Declaration.ofOutputs,
    List.find?_map] at h
  obtain ⟨port, hport, rfl⟩ := Option.map_eq_some_iff.1 h
  obtain ⟨hsymbol, before, after, houtputs, hbefore⟩ := List.find?_eq_some_iff_append.1 hport
  have hmem : port ∈ n.type.outputs := List.mem_of_find?_eq_some hport
  have hpair : (n.node.id, port.name) = (nodeId, name) :=
    hapart _ (mem_namedOutputs_of_mem_nodes hn hmem) _ hsource (of_decide_eq_true hsymbol)
  cases hpair
  refine ⟨rfl, port, ?_, rfl⟩
  -- an earlier output with the name would have the variable too
  refine List.find?_eq_some_iff_append.2 ⟨by simp, before, after, houtputs, fun p hp => ?_⟩
  have hne : Symbol.output n.node.id p.name ≠ Symbol.output n.node.id port.name := by
    have hother := hbefore p hp
    rw [Bool.not_eq_true'] at hother
    exact of_decide_eq_false hother
  simp only [Bool.not_eq_true', beq_eq_false_iff_ne]
  exact fun heq => hne (by rw [heq])

/-- What nodes declare as the variable of an output has the type of the output. -/
theorem eq_variable_of_mem_own (hd : d ∈ plan.ownDeclarations)
    (hsymbol : d.symbol = Symbol.output nodeId name) :
    ∃ type, plan.outputType? nodeId name = some type ∧
      d = .variable type (Symbol.output nodeId name) := by
  have hfirst := mem_distinctOn_iff.1 hd
  rw [hsymbol, List.find?_flatMap] at hfirst
  obtain ⟨n, hn, hfind⟩ := List.exists_of_findSome?_eq_some hfirst
  obtain ⟨rfl, port, hport, rfl⟩ := output?_of_find?_ofNode hapart hsource hn hfind
  refine ⟨port.type, ?_, rfl⟩
  rw [outputType?, typedNode?_of_mem_nodes hn, Option.bind_some, hport, Option.map_some]

end Apart

/-- The type that readers take the source of a connection to have. -/
def readType (plan : Plan) (c : Connection) : ValueType :=
  (plan.outputType? c.sourceId c.sourcePort).getD .float

/-- **The variable of a source is declared with the type that readers take it to have.** -/
theorem eq_variable_of_mem_declarations (hapart : plan.VariablesApart)
    (hnodes : ∀ n, plan.typedNode? c.sourceId = some n → n ∈ plan.nodes)
    (hc : c ∈ plan.graph.connections) (hreads : plan.readsNode c = true) {d : Declaration}
    (hd : d ∈ plan.declarations.value) (hsymbol : d.symbol = sourceSymbol c) :
    d = .variable (plan.readType c) (sourceSymbol c) := by
  rcases List.mem_append.1 hd with hown | hforced
  · obtain ⟨type, htype, rfl⟩ := eq_variable_of_mem_own hapart
      (mem_namedOutputs_of_readsNode hc hreads) hown hsymbol
    rw [readType, htype, Option.getD_some]
    rfl
  · obtain ⟨c', hc', rfl⟩ := List.mem_map.1 hforced
    have hsymbol : sourceSymbol c' = sourceSymbol c := hsymbol
    have hnone : plan.outputType? c.sourceId c.sourcePort = none := by
      refine Option.eq_none_iff_forall_ne_some.2 fun type htype => ?_
      exact not_mem_own_of_mem_undeclaredReads hc' (hsymbol ▸ mem_own_of_outputType? hnodes htype)
    rw [readType, hnone, hsymbol, Option.getD_none]

/-- One line declares the variable. -/
theorem filter_lines (hapart : plan.VariablesApart)
    (hnodes : ∀ n, plan.typedNode? c.sourceId = some n → n ∈ plan.nodes)
    (hc : c ∈ plan.graph.connections) (hreads : plan.readsNode c = true) :
    (plan.declarations.value.map Declaration.line).filter
        (fun line => decide (Declaration.nameIn line = sourceSymbol c))
      = [(Declaration.variable (plan.readType c) (sourceSymbol c)).line] := by
  obtain ⟨d, hd, hsymbol⟩ := List.mem_map.1 (mem_symbols_of_readsNode hc hreads)
  obtain rfl := eq_variable_of_mem_declarations hapart hnodes hc hreads hd hsymbol
  have hnames := plan.map_nameIn_lines
  rw [List.map_map, symbols, List.map_inj_left] at hnames
  have honly := filter_eq_singleton (List.pairwise_map.1 plan.nodup_symbols) hd
  rw [List.filter_map, ← List.map_singleton, ← honly]
  refine congrArg _ (List.filter_congr fun d hd => ?_)
  rw [Function.comp_apply, ← hnames d hd]
  rfl

/-! ## What is read -/

theorem isVirtual_of_readsNode (h : plan.readsNode c = true) :
    plan.isVirtual c.sourceId = false := by
  simp only [readsNode, Bool.and_eq_true, Bool.not_eq_true'] at h
  exact h.1

section Reads

variable (hreads : plan.readsNode c = true) (hdeclared : sourceSymbol c ∈ plan.declared)

include hreads hdeclared

theorem connectedInput_of_readsNode (port : Port) : plan.connectedInput c port
    = pure (some (Glsl.convert (sourceSymbol c) (plan.readType c) port.type)) := by
  have hdeclares : plan.declares (Symbol.output c.sourceId c.sourcePort) = true :=
    List.contains_iff_mem.2 hdeclared
  rw [connectedInput, if_neg (by simp [isVirtual_of_readsNode hreads])]
  simp only [hdeclares, if_true]
  rfl

theorem connectedParam_of_readsNode (n : Node) : plan.connectedParam n c
    = pure (Glsl.toFloat (sourceSymbol c) (plan.readType c)) := by
  have hdeclares : plan.declares (Symbol.output c.sourceId c.sourcePort) = true :=
    List.contains_iff_mem.2 hdeclared
  rw [connectedParam, if_neg (by simp [isVirtual_of_readsNode hreads])]
  simp only [hdeclares, if_true]
  rfl

end Reads

end Plan

/-- **Variables are declared with the types that they are read with.** For every graph with an order
of execution, valid or not, in which no two outputs share a variable: what a connection reads from a
node of the graph is declared in a single line, and inputs and parameters convert it from the very
type in that line. It is the type of the output if the node has one with that name, and a float
otherwise. -/
theorem declared_types_agree (catalog : Catalog) (settings : Settings) (g : Graph)
    (order : List String) (horder : g.executionOrder settings = .ok order)
    (hapart : (Plan.compiling catalog settings g order).VariablesApart) :
    let plan := Plan.compiling catalog settings g order
    ∀ c ∈ g.connections, plan.readsNode c = true →
      let symbol := Plan.sourceSymbol c
      let type := (plan.outputType? c.sourceId c.sourcePort).getD .float
      (compileOrdered catalog settings g order).program.globals.filter
          (fun line => decide (Declaration.nameIn line = symbol))
        = [type.name ++ " " ++ symbol ++ " = " ++ type.zero ++ ";"] ∧
      (∀ port, plan.connectedInput c port = pure (some (Glsl.convert symbol type port.type))) ∧
      ∀ n, plan.connectedParam n c = pure (Glsl.toFloat symbol type) := by
  intro plan c hc hreads
  have hnodes : ∀ n, plan.typedNode? c.sourceId = some n → n ∈ plan.nodes :=
    fun n hn => Plan.mem_nodes_of_typedNode? horder hn
  have hdeclared : Plan.sourceSymbol c ∈ plan.declared :=
    (Plan.complete_compiling horder).reads c hc hreads
  rw [globals_compileOrdered]
  exact ⟨Plan.filter_lines hapart hnodes hc hreads,
    Plan.connectedInput_of_readsNode hreads hdeclared,
    Plan.connectedParam_of_readsNode hreads hdeclared⟩

/-- The types of a light with two outputs of one name, and of a node that takes it. -/
def Catalog.twofold : Catalog := .ofList
  [((NodeType.bare "lamp" "source").withOutput (.plain "y" .vec3)).withOutput (.plain "y" .float),
    ((NodeType.bare "mixer" "tool").withInput (.plain "x" .vec4)).withParam "rate" (.float 1)]

/-- A graph with a repeated id and a node of unknown type. A light is read, an output that it does
not have, and an output of the node of unknown type. -/
def Graph.twofold : Graph where
  id := "twofold"
  name := "twofold"
  version := formatVersion
  nodes := [.bare "m" "mixer", .bare "l" "lamp", .bare "l" "mixer", .bare "u" "unheard"]
  connections := [.between "1" ("l", "y") "m" (.port "x"),
    .between "2" ("l", "z") "m" (.parameter "rate"),
    .between "3" ("u", "y") "m" (.parameter "rate")]
  lanes := []

/-- The light is declared and read by the first output with its name, what is not there as a
float. -/
theorem declared_types_twofold : Graph.twofold.executionOrder {} = .ok ["l", "u", "m"] ∧
    let plan := Plan.compiling .twofold {} .twofold ["l", "u", "m"]
    plan.VariablesApart ∧
    (compileOrdered .twofold {} .twofold ["l", "u", "m"]).program.globals.filter
        (fun line => decide (Declaration.nameIn line = "node_l_y"))
      = [(Declaration.variable .vec3 "node_l_y").line] ∧
    plan.connectedInput (.between "1" ("l", "y") "m" (.port "x")) (.plain "x" .vec4)
      = pure (some (Glsl.convert "node_l_y" .vec3 .vec4)) ∧
    plan.connectedParam (.bare "m" "mixer") (.between "2" ("l", "z") "m" (.parameter "rate"))
      = pure (Glsl.toFloat "node_l_z" .float) ∧
    plan.connectedParam (.bare "m" "mixer") (.between "3" ("u", "y") "m" (.parameter "rate"))
      = pure (Glsl.toFloat "node_u_y" .float) := by
  have horder : Graph.twofold.executionOrder {} = .ok ["l", "u", "m"] := by decide +kernel
  have hapart : (Plan.compiling .twofold {} .twofold ["l", "u", "m"]).VariablesApart := by
    unfold Plan.VariablesApart
    decide +kernel
  have hreads : ∀ c ∈ Graph.twofold.connections,
      (Plan.compiling .twofold {} .twofold ["l", "u", "m"]).readsNode c = true := by
    decide +kernel
  have htypes := declared_types_agree .twofold {} .twofold _ horder hapart
  obtain ⟨hline, hinput, -⟩ := htypes (.between "1" ("l", "y") "m" (.port "x")) (by decide)
    (hreads _ (by decide))
  obtain ⟨-, -, hmissing⟩ := htypes (.between "2" ("l", "z") "m" (.parameter "rate")) (by decide)
    (hreads _ (by decide))
  obtain ⟨-, -, hunknown⟩ := htypes (.between "3" ("u", "y") "m" (.parameter "rate")) (by decide)
    (hreads _ (by decide))
  have hy : Plan.sourceSymbol (.between "1" ("l", "y") "m" (.port "x")) = "node_l_y" := by
    decide +kernel
  have hz : Plan.sourceSymbol (.between "2" ("l", "z") "m" (.parameter "rate")) = "node_l_z" := by
    decide +kernel
  have hu : Plan.sourceSymbol (.between "3" ("u", "y") "m" (.parameter "rate")) = "node_u_y" := by
    decide +kernel
  rw [hy] at hline hinput
  rw [hz] at hmissing
  rw [hu] at hunknown
  exact ⟨horder, hapart, hline, hinput _, hmissing _, hunknown _⟩

end ShaderGraph
