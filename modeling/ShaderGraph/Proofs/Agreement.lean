import ShaderGraph.Emit.Body
import ShaderGraph.Proofs.ConnectedInputs
import ShaderGraph.Proofs.Library

/-!
# Plans that agree on some nodes

What is written for a node depends on few things: the node and its type, its automation, its place
in the order, the names of its uniforms, and for each connection into it what is known of the
source. Two plans that agree on these for some nodes write the same code for them, whatever else
differs (`Agree`).

Inlined code reaches further, to the nodes that a node reads. It is the same where the shared nodes
are closed under this: the known source of a connection into a shared node is shared
(`Agree.inlineValue_eq`).
-/

namespace ShaderGraph

theorem highest?_congr {α : Type} {rank rank' : α → Option Nat} {items : List α}
    (h : ∀ a ∈ items, rank' a = rank a) : highest? rank' items = highest? rank items := by
  rw [highest?, highest?]
  congr 1
  refine List.foldl_ext _ _ none fun best a ha => ?_
  simp only [highest?.climb, h a ha]

theorem isSome_lastIndex?_iff {a : String} {items : List String} :
    (lastIndex? a items).isSome = true ↔ a ∈ items := by
  constructor
  · intro h
    obtain ⟨i, hi⟩ := Option.isSome_iff_exists.1 h
    exact mem_of_lastIndex? hi
  · intro h
    induction items with
    | nil => cases h
    | cons b rest ih =>
      rw [lastIndex?]
      split
      · rfl
      · rename_i hrest
        have hnot : a ∉ rest := fun hmem => by simp [hrest] at ih; exact ih hmem
        rw [if_pos ((List.mem_cons.1 h).resolve_right hnot).symm]
        rfl

/-- Only which uniforms a node has matters, not their order. -/
theorem Specialised.isPersonal_congr {names names' : List String} (h : ∀ x, x ∈ names' ↔ x ∈ names)
    (s : Specialised) : s.isPersonal names' = s.isPersonal names := by
  rw [isPersonal, isPersonal]
  congr 1
  rw [Bool.eq_iff_iff, List.any_eq_true, List.any_eq_true]
  simp only [h]

namespace Plan

theorem mem_connections_of_winner? {plan : Plan} {n : Node} {name : String} {c : Connection}
    (h : plan.winner? n name = some c) :
    c ∈ plan.graph.connections ∧ c.targetId = n.id := by
  obtain ⟨consumer, -, hhighest⟩ := Option.bind_eq_some_iff.1 h
  obtain ⟨hc, hends⟩ := List.mem_filter.1 (mem_of_highest? hhighest).1
  exact ⟨hc, targetId_of_endsAt hends⟩

/-! ## Marching nodes -/

section Marching

variable (plan : Plan) (lib : Library)

/-- The distance function of a marching node, if it has one. -/
def distanceTexts (n : Node) : List String :=
  (plan.marchInput lib n plan.settings.distancePort (Symbol.distance n.id)).value.1

/-- The displacement function of a marching node, if it has one. -/
def displacementTexts (n : Node) : List String :=
  (plan.marchInput lib n plan.settings.displacementPort (Symbol.displacement n.id)).value.1

/-- What a marching node calls. -/
def marchCalls (n : Node) : MarchCalls :=
  ⟨(plan.marchInput lib n plan.settings.distancePort (Symbol.distance n.id)).value.2,
    (plan.marchInput lib n plan.settings.displacementPort (Symbol.displacement n.id)).value.2⟩

theorem value_addMarcher (m : Marching) (n : Node) : (plan.addMarcher lib m n).value
    = ⟨m.functions ++ plan.distanceTexts lib n ++ plan.displacementTexts lib n,
      m.calls.insert n.id (plan.marchCalls lib n)⟩ := by
  simp only [addMarcher, Warned.value_bind]
  -- the warning about a missing distance has no part in the value
  split <;> rfl

theorem functions_addMarchers (nodes : List Node) (m : Marching) :
    (plan.addMarchers lib nodes m).value.functions
      = m.functions ++ nodes.flatMap fun n =>
          plan.distanceTexts lib n ++ plan.displacementTexts lib n := by
  induction nodes generalizing m with
  | nil => exact (List.append_nil _).symm
  | cons n rest ih =>
    rw [addMarchers, Warned.value_bind, ih, value_addMarcher, List.flatMap_cons]
    simp only [List.append_assoc]

/-- **The distance functions of a program are those of its marching nodes**, in their order. -/
theorem functions_marching :
    (plan.marching lib).value.functions = plan.marchers.flatMap fun n =>
      plan.distanceTexts lib n ++ plan.displacementTexts lib n :=
  functions_addMarchers plan lib plan.marchers {}

/-- The calls of a node are its own, where no other node has its id. -/
theorem find?_calls_addMarchers {n : Node} {nodes : List Node}
    (hid : ∀ m ∈ nodes, m.id = n.id → m = n) (m : Marching) :
    (plan.addMarchers lib nodes m).value.calls.find? n.id
      = if n.id ∈ nodes.map (·.id) then some (plan.marchCalls lib n) else m.calls.find? n.id := by
  induction nodes generalizing m with
  | nil => rfl
  | cons first rest ih =>
    obtain ⟨hfirst, hrest⟩ := List.forall_mem_cons.1 hid
    rw [addMarchers, Warned.value_bind, ih hrest, value_addMarcher, Dict.find?_insert,
      List.map_cons]
    by_cases heq : first.id = n.id
    · rw [hfirst heq, if_pos rfl, if_pos (List.mem_cons_self ..), ite_self]
    · have heq' : n.id ≠ first.id := fun h => heq h.symm
      simp only [heq', List.mem_cons, false_or, if_false]

variable {plan}

theorem mem_marchers_iff {n : Node} : n ∈ plan.marchers
    ↔ n.id ∈ plan.order ∧ ∃ t, plan.typedNode? n.id = some ⟨n, t⟩ ∧ t.marches = true := by
  simp only [marchers, List.mem_map, List.mem_filter]
  constructor
  · rintro ⟨m, ⟨hm, hmarches⟩, rfl⟩
    refine ⟨plan.sublist_order.subset (List.mem_map_of_mem hm), m.type, ?_, hmarches⟩
    exact typedNode?_of_mem_nodes hm
  · rintro ⟨horder, t, ht, hmarches⟩
    exact ⟨⟨n, t⟩, ⟨List.mem_filterMap.2 ⟨n.id, horder, ht⟩, hmarches⟩, rfl⟩

/-- A node of the plan has calls if it marches. -/
theorem find?_calls_marching {n : TypedNode} (h : plan.typedNode? n.node.id = some n) :
    (plan.marching lib).value.calls.find? n.node.id
      = if n.node.id ∈ plan.order ∧ n.type.marches = true then some (plan.marchCalls lib n.node)
        else none := by
  have hid : ∀ m ∈ plan.marchers, m.id = n.node.id → m = n.node := by
    intro m hm heq
    obtain ⟨-, t, ht, -⟩ := mem_marchers_iff.1 hm
    rw [heq, h] at ht
    exact congrArg TypedNode.node (Option.some.inj ht).symm
  have hmem : n.node.id ∈ plan.marchers.map (·.id)
      ↔ n.node.id ∈ plan.order ∧ n.type.marches = true := by
    rw [List.mem_map]
    constructor
    · rintro ⟨m, hm, heq⟩
      obtain ⟨horder, t, ht, hmarches⟩ := mem_marchers_iff.1 hm
      rw [heq, h] at ht
      cases ht
      exact ⟨heq ▸ horder, hmarches⟩
    · rintro ⟨horder, hmarches⟩
      exact ⟨n.node, mem_marchers_iff.2 ⟨horder, n.type, h, hmarches⟩, rfl⟩
  rw [marching, find?_calls_addMarchers plan lib hid]
  simp only [hmem]
  rfl

end Marching

/-! ## Agreement -/

/-- The two plans know the same of the source of a connection, and the source is shared if it is a
node of known type. -/
structure SameSource (shared : String → Prop) (plan plan' : Plan) (c : Connection) : Prop where
  node : plan'.typedNode? c.sourceId = plan.typedNode? c.sourceId
  index : plan'.index? c.sourceId = plan.index? c.sourceId
  declares : plan'.declares (Symbol.output c.sourceId c.sourcePort)
    = plan.declares (Symbol.output c.sourceId c.sourcePort)
  shared : (plan.typedNode? c.sourceId).isSome = true → shared c.sourceId

/-- The two plans agree on the shared nodes and on what these read. -/
structure Agree (shared : String → Prop) (plan plan' : Plan) : Prop where
  settings : plan'.settings = plan.settings
  connections : plan'.graph.connections = plan.graph.connections
  virtuals : ∀ id, plan'.uniforms.virtual? id = plan.uniforms.virtual? id
  node : ∀ id, shared id → plan'.typedNode? id = plan.typedNode? id
  index : ∀ id, shared id → plan'.index? id = plan.index? id
  lane : ∀ id name, shared id → plan'.graph.lane? id name = plan.graph.lane? id name
  uniform : ∀ id name, shared id →
    plan'.uniforms.param? id name = plan.uniforms.param? id name
  source : ∀ c ∈ plan.graph.connections, shared c.targetId → plan.isVirtual c.sourceId = false →
    SameSource shared plan plan' c

namespace Agree

variable {shared : String → Prop} {plan plan' : Plan} (h : Agree shared plan plan')

include h

theorem isVirtual_eq (id : String) : plan'.isVirtual id = plan.isVirtual id := by
  rw [isVirtual, isVirtual, h.settings]

theorem portConnection?_eq (id port : String) :
    plan'.graph.portConnection? id port = plan.graph.portConnection? id port := by
  rw [Graph.portConnection?, Graph.portConnection?, h.connections]

theorem paramConnections_eq (id param : String) :
    plan'.graph.paramConnections id param = plan.graph.paramConnections id param := by
  rw [Graph.paramConnections, Graph.paramConnections, h.connections]

theorem mem_order_iff {id : String} (hid : shared id) : id ∈ plan'.order ↔ id ∈ plan.order := by
  rw [← isSome_lastIndex?_iff, ← isSome_lastIndex?_iff]
  exact iff_of_eq (congrArg (fun i => i.isSome = true) (h.index id hid))

/-! ## Parameters -/

section Connections

variable {c : Connection} (hc : c ∈ plan.graph.connections) (hshared : shared c.targetId)

include hc hshared

theorem rank?_eq (consumer : Nat) : plan'.rank? consumer c = plan.rank? consumer c := by
  rw [rank?, rank?, h.isVirtual_eq]
  cases hvirtual : plan.isVirtual c.sourceId with
  | true => rfl
  | false => rw [(h.source c hc hshared hvirtual).index]

theorem connectedParam_eq (n : Node) : plan'.connectedParam n c = plan.connectedParam n c := by
  rw [connectedParam, connectedParam, h.isVirtual_eq, h.virtuals]
  cases hvirtual : plan.isVirtual c.sourceId with
  | true => rfl
  | false =>
    have hsource := h.source c hc hshared hvirtual
    simp only [outputType?, hsource.node, hsource.declares]

theorem connectedInput_eq (port : Port) :
    plan'.connectedInput c port = plan.connectedInput c port := by
  rw [connectedInput, connectedInput, h.isVirtual_eq, h.virtuals]
  cases hvirtual : plan.isVirtual c.sourceId with
  | true => rfl
  | false =>
    have hsource := h.source c hc hshared hvirtual
    simp only [outputType?, hsource.node, hsource.declares]

end Connections

section Nodes

variable {n : Node} (hn : shared n.id)

include hn

theorem automation?_eq (name : String) : plan'.automation? n name = plan.automation? n name := by
  rw [automation?, automation?, h.lane n.id name hn]

theorem settled_eq (name : String) (param : Param) :
    plan'.settled n name param = plan.settled n name param := by
  rw [settled, settled, h.uniform n.id name hn]

theorem winner?_eq (name : String) : plan'.winner? n name = plan.winner? n name := by
  rw [winner?, winner?, h.index n.id hn, h.paramConnections_eq]
  refine Option.bind_congr fun consumer _ => highest?_congr fun c hc => ?_
  obtain ⟨hmem, hends⟩ := List.mem_filter.1 hc
  exact h.rank?_eq hmem ((targetId_of_endsAt hends).symm ▸ hn) consumer

theorem resolveFloat_eq (name : String) (param : Param) :
    plan'.resolveFloat n name param = plan.resolveFloat n name param := by
  rw [resolveFloat, resolveFloat, h.automation?_eq hn, h.winner?_eq hn, h.settled_eq hn]
  cases plan.automation? n name with
  | some call => rfl
  | none =>
    cases hwinner : plan.winner? n name with
    | none => rfl
    | some c =>
      obtain ⟨hc, htarget⟩ := mem_connections_of_winner? hwinner
      simp only [h.connectedParam_eq hc (htarget ▸ hn)]

theorem resolve_eq (name : String) (param : Param) :
    plan'.resolve n name param = plan.resolve n name param := by
  rw [resolve, resolve, h.resolveFloat_eq hn]

theorem connected_eq (port : Port) : plan'.connected n port = plan.connected n port := by
  rw [connected, connected, h.portConnection?_eq]
  cases hport : plan.graph.portConnection? n.id port.name with
  | none => rfl
  | some c =>
    obtain ⟨hc, htarget⟩ := mem_of_portConnection? hport
    exact h.connectedInput_eq hc (htarget ▸ hn) port

theorem input_eq (params : Dict Resolved) (coordinates : Option Coordinates) (port : Port) :
    plan'.input n params coordinates port = plan.input n params coordinates port := by
  rw [input, input, h.connected_eq hn]

end Nodes

section TypedNodes

variable {n : TypedNode} (hn : shared n.node.id)

include hn

theorem resolveAll_eq : plan'.resolveAll n = plan.resolveAll n := by
  have hresolve : plan'.resolve n.node = plan.resolve n.node :=
    funext fun name => funext fun param => h.resolve_eq hn name param
  rw [resolveAll, resolveAll, hresolve]

theorem inputs_eq (params : Dict Resolved) (coordinates : Option Coordinates) :
    plan'.inputs n params coordinates = plan.inputs n params coordinates := by
  have hinput : plan'.input n.node params coordinates = plan.input n.node params coordinates :=
    funext fun port => h.input_eq hn params coordinates port
  rw [inputs, inputs, hinput]

theorem specialise_eq (code : String) : plan'.specialise n code = plan.specialise n code := by
  simp only [specialise, h.resolveAll_eq hn, h.inputs_eq hn]

end TypedNodes

/-! ## The library -/

section Library

variable (hnames : ∀ id, shared id →
  ∀ x, x ∈ plan'.uniforms.namesOf id ↔ x ∈ plan.uniforms.namesOf id)

include hnames

omit h in
theorem addCode_eq {n : TypedNode} (hn : shared n.node.id) (lib : Library) (s : Specialised) :
    plan'.addCode lib n s = plan.addCode lib n s := by
  have hown : plan'.needsOwn lib n s = plan.needsOwn lib n s := by
    funext found
    rw [needsOwn, needsOwn, s.isPersonal_congr (hnames n.node.id hn)]
  rw [addCode, addCode, hown]

theorem addNode_eq {n : TypedNode} (hn : shared n.node.id) (lib : Library) :
    plan'.addNode lib n = plan.addNode lib n := by
  simp only [addNode, h.specialise_eq hn, addCode_eq hnames hn]

/-- Shared nodes bring the same to a library. -/
theorem addNodes_eq {nodes : List TypedNode} (hnodes : ∀ n ∈ nodes, shared n.node.id)
    (lib : Library) : plan'.addNodes nodes lib = plan.addNodes nodes lib := by
  induction nodes generalizing lib with
  | nil => rfl
  | cons n rest ih =>
    obtain ⟨hn, hrest⟩ := List.forall_mem_cons.1 hnodes
    simp only [addNodes, h.addNode_eq hnames hn, ih hrest]

/-- **A shared node gives its functions the same names**, if the shared nodes have their turn before
the others: what a node finds in the library was put there by shared nodes. -/
theorem renamingOf_library_eq {front rest rest' : List TypedNode}
    (hnodes : plan.nodes = front ++ rest) (hnodes' : plan'.nodes = front ++ rest')
    (hfront : ∀ n ∈ front, shared n.node.id) (hrest : ∀ n ∈ rest, ¬ shared n.node.id)
    (hrest' : ∀ n ∈ rest', ¬ shared n.node.id) {id : String} (hid : shared id) :
    plan'.library.value.renamingOf id = plan.library.value.renamingOf id := by
  have hnot : ∀ nodes : List TypedNode, (∀ n ∈ nodes, ¬ shared n.node.id) →
      id ∉ nodes.map (·.node.id) := by
    intro nodes hunshared hmem
    obtain ⟨n, hn, rfl⟩ := List.mem_map.1 hmem
    exact hunshared n hn hid
  rw [library, library, hnodes, hnodes', value_addNodes_append, value_addNodes_append,
    renamingOf_addNodes_of_not_mem (hnot rest hrest),
    renamingOf_addNodes_of_not_mem (hnot rest' hrest'), h.addNodes_eq hnames hfront]

end Library

/-! ## Inlined code -/

theorem marchCoordinates_eq : plan'.marchCoordinates = plan.marchCoordinates := by
  rw [marchCoordinates, marchCoordinates, h.settings]

theorem virtualValue_eq (id : String) (target : ValueType) :
    plan'.virtualValue id target = plan.virtualValue id target := by
  rw [virtualValue, virtualValue, h.virtuals]

section Follow

variable {lib lib' : Library} {follow follow' : Follow}
  (hlib : ∀ id, shared id → lib'.renamingOf id = lib.renamingOf id)
  (hfollow : ∀ c ∈ plan.graph.connections, shared c.targetId →
    ∀ target s, follow' c target s = follow c target s)

include hfollow

theorem inlinedInput_eq {n : Node} (hn : shared n.id) (params : Dict Resolved) (port : Port)
    (s : Inlining) :
    plan'.inlinedInput follow' n params port s = plan.inlinedInput follow n params port s := by
  rw [inlinedInput, inlinedInput, h.portConnection?_eq, h.marchCoordinates_eq]
  cases hport : plan.graph.portConnection? n.id port.name with
  | none => rfl
  | some c =>
    obtain ⟨hc, htarget⟩ := mem_of_portConnection? hport
    exact hfollow c hc (htarget ▸ hn) port.type s

theorem inlinedInputs_eq {n : Node} (hn : shared n.id) (params : Dict Resolved) (ports : List Port)
    (s : Inlining) :
    plan'.inlinedInputs follow' n params ports s = plan.inlinedInputs follow n params ports s := by
  induction ports generalizing s with
  | nil => rfl
  | cons port rest ih => simp only [inlinedInputs, h.inlinedInput_eq hfollow hn, ih]

include hlib

theorem inlineNode_eq {n : TypedNode} (hn : shared n.node.id) (s : Inlining) :
    plan'.inlineNode lib' follow' n s = plan.inlineNode lib follow n s := by
  simp only [inlineNode, inlinedCode, h.resolveAll_eq hn, h.inlinedInputs_eq hfollow hn,
    h.marchCoordinates_eq, hlib n.node.id hn]

theorem inlinedOutput_eq {c : Connection} (hc : c ∈ plan.graph.connections)
    (hshared : shared c.targetId) (hvirtual : plan.isVirtual c.sourceId = false)
    (target : ValueType) (s : Inlining) :
    plan'.inlinedOutput lib' follow' c target s = plan.inlinedOutput lib follow c target s := by
  have hsource := h.source c hc hshared hvirtual
  rw [inlinedOutput, inlinedOutput, hsource.node]
  cases hnode : plan.typedNode? c.sourceId with
  | none => rfl
  | some n =>
    have hn : shared n.node.id := by
      rw [id_of_typedNode? hnode]
      exact hsource.shared (by rw [hnode]; rfl)
    simp only [h.inlineNode_eq hlib hfollow hn]

end Follow

section March

variable {lib lib' : Library} (hlib : ∀ id, shared id → lib'.renamingOf id = lib.renamingOf id)

include hlib

/-- **What is inlined for a connection into a shared node is the same.** -/
theorem inlineValue_eq (levels : Nat) {c : Connection} (hc : c ∈ plan.graph.connections)
    (hshared : shared c.targetId) (target : ValueType) (s : Inlining) :
    plan'.inlineValue lib' levels c target s = plan.inlineValue lib levels c target s := by
  induction levels generalizing c target s with
  | zero =>
    rw [inlineValue, inlineValue, h.isVirtual_eq, h.virtualValue_eq, h.settings]
  | succ levels ih =>
    rw [inlineValue, inlineValue, h.isVirtual_eq, h.virtualValue_eq]
    cases hvirtual : plan.isVirtual c.sourceId with
    | true => rw [if_pos rfl, if_pos rfl]
    | false =>
      rw [if_neg Bool.false_ne_true, if_neg Bool.false_ne_true]
      exact h.inlinedOutput_eq hlib (fun c hc hshared target s => ih hc hshared target s) hc hshared
        hvirtual target s

theorem marchFunction_eq (name : String) {c : Connection} (hc : c ∈ plan.graph.connections)
    (hshared : shared c.targetId) :
    plan'.marchFunction lib' name c = plan.marchFunction lib name c := by
  unfold marchFunction
  rw [h.settings, h.inlineValue_eq hlib _ hc hshared]

/-- **A shared node has the same distance and displacement functions.** -/
theorem marchInput_eq {n : Node} (hn : shared n.id) (port name : String) :
    plan'.marchInput lib' n port name = plan.marchInput lib n port name := by
  rw [marchInput, marchInput, h.portConnection?_eq, marchCall, marchCall, h.settings]
  cases hport : plan.graph.portConnection? n.id port with
  | none => rfl
  | some c =>
    obtain ⟨hc, htarget⟩ := mem_of_portConnection? hport
    simp only [h.marchFunction_eq hlib name hc (htarget ▸ hn)]

theorem distanceTexts_eq {n : Node} (hn : shared n.id) :
    plan'.distanceTexts lib' n = plan.distanceTexts lib n := by
  rw [distanceTexts, distanceTexts, h.settings, h.marchInput_eq hlib hn]

theorem displacementTexts_eq {n : Node} (hn : shared n.id) :
    plan'.displacementTexts lib' n = plan.displacementTexts lib n := by
  rw [displacementTexts, displacementTexts, h.settings, h.marchInput_eq hlib hn]

theorem marchCalls_eq {n : Node} (hn : shared n.id) :
    plan'.marchCalls lib' n = plan.marchCalls lib n := by
  rw [marchCalls, marchCalls, h.settings, h.marchInput_eq hlib hn, h.marchInput_eq hlib hn]

theorem find?_calls_eq {n : TypedNode} (hn : shared n.node.id)
    (hnode : plan.typedNode? n.node.id = some n) :
    (plan'.marching lib').value.calls.find? n.node.id
      = (plan.marching lib).value.calls.find? n.node.id := by
  have hnode' : plan'.typedNode? n.node.id = some n := by rw [h.node n.node.id hn, hnode]
  rw [find?_calls_marching lib' hnode', find?_calls_marching lib hnode, h.marchCalls_eq hlib hn]
  simp only [h.mem_order_iff hn]

/-- **A shared node has the same body.** -/
theorem body_eq {n : TypedNode} (hn : shared n.node.id)
    (hnode : plan.typedNode? n.node.id = some n) :
    plan'.body lib' (plan'.marching lib').value n = plan.body lib (plan.marching lib).value n := by
  simp only [body, mainCode, mainBindings, h.resolveAll_eq hn, h.inputs_eq hn,
    h.find?_calls_eq hlib hn hnode, hlib n.node.id hn]

end March

end Agree

end Plan

/-! ## A scene -/

/-- A type of shapes, with a function that depends on a parameter. -/
def NodeType.shape : NodeType :=
  { ((((bare "shape" "source").withInput (.plain "a" .float)).withInput
      (.plain "b" .float)).withOutput (.plain "d" .float)).withParam "r" (.float 1) with
    functionCode := some "float f() \x7b return $param.r; \x7d"
    mainCode := "$output.d = f();" }

/-- A type that marches. -/
def NodeType.eye : NodeType :=
  { (bare "eye" "output").withInput (.plain "sdf" .float) with mainCode := "$sdf_call;" }

/-- The types of shapes and of what looks at them. -/
def Catalog.scene : Catalog := .ofList [.shape, .eye]

end ShaderGraph
