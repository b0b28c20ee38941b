import ShaderGraph.Proofs.Agreement
import ShaderGraph.Proofs.Insertion

/-!
# Code beside a new node

A node that nothing mentions leaves the code of the others alone, as far as connections name them:
they keep the names of their functions, their distance functions and their bodies. The new node has
its turn behind them, so what they find in the library is not its doing, and its uniforms and
variables are no one else's.

Nodes that no connection names need not keep their code. They share their part of the order with the
new node, and a function that it brings first can make theirs give way.
-/

namespace ShaderGraph

variable {catalog : Catalog} {settings : Settings} {g : Graph} {n : Node} {id : String}

theorem lastIndex?_append_of_not_mem {a : String} {x y : List String} (h : a ∉ y) :
    lastIndex? a (x ++ y) = lastIndex? a x := by
  induction x with
  | nil =>
    have hnone : ¬ (lastIndex? a y).isSome = true := isSome_lastIndex?_iff.not.2 h
    rw [List.nil_append, Option.not_isSome_iff_eq_none.1 hnone]
    rfl
  | cons b rest ih => rw [List.cons_append, lastIndex?, lastIndex?, ih]

/-! ## Nodes and uniforms -/

theorem Graph.node?_withNodeAt (place : Nat) (hid : id ≠ n.id) :
    (g.withNodeAt place n).node? id = g.node? id := by
  rw [node?, withNodeAt, List.find?_append, List.find?_cons_of_neg (by simpa using hid.symm),
    ← List.find?_append, List.take_append_drop]
  rfl

/-- The uniforms of the new node have its id. -/
theorem UniformTable.uniform?_withNodeAt (place : Nat) (hid : id ≠ n.id) (name : String) :
    (ofGraph catalog settings (g.withNodeAt place n)).uniform? id name
      = (ofGraph catalog settings g).uniform? id name := by
  cases hon : settings.parameterUniforms with
  | false => rw [uniform?_ofGraph_of_off hon, uniform?_ofGraph_of_off hon]
  | true =>
    have hnone : (ofNode catalog n).find? (fun u => decide (u.key = (id, name))) = none := by
      refine List.find?_eq_none.2 fun u hu hkey => hid ?_
      obtain ⟨t, -, e, -, -, rfl⟩ := mem_ofNode.1 hu
      exact (congrArg Prod.fst (of_decide_eq_true hkey)).symm
    rw [uniform?_ofGraph hon, uniform?_ofGraph hon, Graph.withNodeAt, List.flatMap_append,
      List.flatMap_cons, List.find?_append, List.find?_append, hnone, Option.none_or,
      ← List.find?_append, ← List.flatMap_append, List.take_append_drop]

/-- An output that a connection reads from a node is declared. -/
theorem Plan.declares_compiling (catalog : Catalog) (g : Graph) (order : List String)
    {c : Connection} (hc : c ∈ g.connections) (hreal : settings.isVirtual c.sourceId = false)
    (hsource : c.sourceId ∈ g.nodeIds) :
    (compiling catalog settings g order).declares (Symbol.output c.sourceId c.sourcePort)
      = true := by
  have hreads : (ofGraph catalog settings g order).readsNode c = true := by
    show (!settings.isVirtual c.sourceId && (g.node? c.sourceId).isSome) = true
    simp [hreal, Graph.isSome_node?_iff.2 hsource]
  exact List.contains_iff_mem.2 (mem_symbols_of_readsNode hc hreads)

/-! ## The two plans -/

namespace Graph.IsNew

variable (h : g.IsNew n.id) (place : Nat)

include h

/-- What connections name stands in the same place. -/
theorem lastIndex?_placeable (hid : g.isMentioned id = true) :
    lastIndex? id ((g.withNodeAt place n).placeable settings)
      = lastIndex? id (g.placeable settings) := by
  obtain ⟨front, before, after, hold, hnext, -, hbehind⟩ := h.placeable_parts place settings
  obtain ⟨hnot, hnot'⟩ := h.not_mem_behind hbehind hid
  rw [hold, hnext, lastIndex?_append_of_not_mem hnot, lastIndex?_append_of_not_mem hnot']

theorem typedNode?_eq (catalog : Catalog) (settings : Settings) (order order' : List String)
    (hid : g.isMentioned id = true) :
    (Plan.compiling catalog settings (g.withNodeAt place n) order').typedNode? id
      = (Plan.compiling catalog settings g order).typedNode? id := by
  have hnode := node?_withNodeAt (g := g) place (h.ne_of_mentioned hid)
  exact congrArg (fun m => Option.bind m _) hnode

/-- **With and without the new node the plans agree on what connections name.** -/
theorem agree (catalog : Catalog) (hsources : ∀ c ∈ g.connections,
      settings.isVirtual c.sourceId = false → c.sourceId ∈ g.nodeIds) :
    Plan.Agree (fun id => g.isMentioned id = true)
      (Plan.compiling catalog settings g (g.placeable settings))
      (Plan.compiling catalog settings (g.withNodeAt place n)
        ((g.withNodeAt place n).placeable settings)) := by
  refine ⟨rfl, rfl, fun _ => rfl, fun id hid => h.typedNode?_eq place catalog settings _ _ hid,
    fun id hid => h.lastIndex?_placeable place hid, fun _ _ _ => rfl, fun id name hid => ?_,
    fun c hc _ hreal => ?_⟩
  · rw [UniformTable.param?_eq, UniformTable.param?_eq]
    exact congrArg _ (UniformTable.uniform?_withNodeAt place (h.ne_of_mentioned hid) name)
  · have hmentioned : g.isMentioned c.sourceId = true := isMentioned_iff.2 ⟨c, hc, .inl rfl⟩
    have hsource := hsources c hc hreal
    refine ⟨h.typedNode?_eq place catalog settings _ _ hmentioned,
      h.lastIndex?_placeable place hmentioned, ?_, fun _ => hmentioned⟩
    have hsource' : c.sourceId ∈ (g.withNodeAt place n).nodeIds :=
      (h.inserts_nodeIds place).mem_iff.2 (.inr hsource)
    exact (Plan.declares_compiling catalog (g.withNodeAt place n) _ hc hreal hsource').trans
      (Plan.declares_compiling catalog g _ hc hreal hsource).symm

theorem mem_namesOf_iff (catalog : Catalog) (hid : g.isMentioned id = true) (symbol : String) :
    symbol ∈ (UniformTable.ofGraph catalog settings (g.withNodeAt place n)).namesOf id
      ↔ symbol ∈ (UniformTable.ofGraph catalog settings g).namesOf id := by
  simp only [UniformTable.mem_namesOf, UniformTable.param?_eq,
    UniformTable.uniform?_withNodeAt place (h.ne_of_mentioned hid)]

/-- What connections name comes first in both plans, the rest behind. -/
theorem nodes_parts (catalog : Catalog) (settings : Settings) : ∃ front rest rest',
    (Plan.compiling catalog settings g (g.placeable settings)).nodes = front ++ rest ∧
    (Plan.compiling catalog settings (g.withNodeAt place n)
      ((g.withNodeAt place n).placeable settings)).nodes = front ++ rest' ∧
    (∀ m ∈ front, g.isMentioned m.node.id = true) ∧
    (∀ m ∈ rest, ¬ g.isMentioned m.node.id = true) ∧
    ∀ m ∈ rest', ¬ g.isMentioned m.node.id = true := by
  obtain ⟨front, before, after, hold, hnext, hfront, hbehind⟩ := h.placeable_parts place settings
  have hid : ∀ (plan : Plan) (ids : List String), ∀ m ∈ ids.filterMap plan.typedNode?,
      m.node.id ∈ ids := by
    intro plan ids m hm
    obtain ⟨id, hmem, hnode⟩ := List.mem_filterMap.1 hm
    exact Plan.id_of_typedNode? hnode ▸ hmem
  set plan := Plan.compiling catalog settings g (g.placeable settings)
  set plan' := Plan.compiling catalog settings (g.withNodeAt place n)
    ((g.withNodeAt place n).placeable settings)
  refine ⟨front.filterMap plan.typedNode?, (before ++ after).filterMap plan.typedNode?,
    (before ++ n.id :: after).filterMap plan'.typedNode?, ?_, ?_,
    fun m hm => hfront _ (hid _ _ m hm), fun m hm => ?_, fun m hm => ?_⟩
  · rw [← List.filterMap_append, ← hold]
    rfl
  · have hsame : ∀ id ∈ front, plan.typedNode? id = plan'.typedNode? id :=
      fun id hmem => (h.typedNode?_eq place catalog settings _ _ (hfront id hmem)).symm
    rw [List.filterMap_congr hsame, ← List.filterMap_append, ← hnext]
    rfl
  · simp [hbehind _ (hid _ _ m hm)]
  · rcases (Inserts.mem_iff ⟨before, after, rfl, rfl⟩).1 (hid _ _ m hm) with heq | hmem
    · rw [heq, h.isMentioned_eq_false]
      exact Bool.false_ne_true
    · simp [hbehind _ hmem]

end Graph.IsNew

/-! ## The code of a node -/

/-- What a program holds for one node. -/
structure NodeCode where
  /-- The new names of the functions that belong to the node. -/
  names : Glsl.Renaming
  /-- The distance function, if there is one. -/
  distance : List String
  /-- The displacement function, if there is one. -/
  displacement : List String
  body : Option String

namespace Plan

variable {plan plan' : Plan} {m : TypedNode} {text : String}

/-- What the program of a plan holds for a node, nothing where its type is unknown. -/
def codeOf (plan : Plan) (id : String) : NodeCode :=
  let lib := plan.library.value
  match plan.typedNode? id with
  | none => ⟨lib.renamingOf id, [], [], none⟩
  | some m =>
    { names := lib.renamingOf id
      distance := if m.type.marches then plan.distanceTexts lib m.node else []
      displacement := if m.type.marches then plan.displacementTexts lib m.node else []
      body := (plan.body lib (plan.marching lib).value m).value }

/-- **Shared nodes have the same code**, if they give their functions the same names. -/
theorem Agree.codeOf_eq {shared : String → Prop} (h : Agree shared plan plan')
    (hlib : ∀ id, shared id → plan'.library.value.renamingOf id = plan.library.value.renamingOf id)
    (hid : shared id) : plan'.codeOf id = plan.codeOf id := by
  rw [codeOf, codeOf, h.node id hid, hlib id hid]
  cases hnode : plan.typedNode? id with
  | none => rfl
  | some m =>
    obtain rfl := id_of_typedNode? hnode
    simp only [h.distanceTexts_eq hlib hid, h.displacementTexts_eq hlib hid,
      h.body_eq hlib hid hnode]

theorem mem_functions_marching (horder : id ∈ plan.order)
    (h : text ∈ (plan.codeOf id).distance ++ (plan.codeOf id).displacement) :
    text ∈ (plan.marching plan.library.value).value.functions := by
  rw [functions_marching, List.mem_flatMap]
  rw [codeOf] at h
  cases hnode : plan.typedNode? id with
  | none => simp [hnode] at h
  | some m =>
    obtain rfl := id_of_typedNode? hnode
    by_cases hmarches : m.type.marches = true
    · simp only [hnode, hmarches, if_true] at h
      exact ⟨m.node, mem_marchers_iff.2 ⟨horder, m.type, hnode, hmarches⟩, h⟩
    · simp [hnode, hmarches] at h

theorem mem_bodies (horder : id ∈ plan.order) (h : text ∈ (plan.codeOf id).body) :
    text ∈ (plan.bodies plan.library.value
      (plan.marching plan.library.value).value).value := by
  rw [codeOf] at h
  cases hnode : plan.typedNode? id with
  | none => simp [hnode] at h
  | some m =>
    simp only [hnode] at h
    have hm : m ∈ plan.nodes := List.mem_filterMap.2 ⟨id, horder, hnode⟩
    simp only [bodies, Warned.value_bind, Warned.value_pure, Warned.value_each]
    exact List.mem_filterMap.2 ⟨_, List.mem_map_of_mem hm, h⟩

end Plan

/-- A program holds the code of the nodes that are executed. -/
theorem mem_program_of_codeOf (catalog : Catalog) (settings : Settings) (g : Graph)
    {order : List String} (horder : id ∈ order) :
    let program := (compileOrdered catalog settings g order).program
    let code := (Plan.compiling catalog settings g order).codeOf id
    (∀ text ∈ code.distance ++ code.displacement, text ∈ program.functions) ∧
      ∀ text ∈ code.body, text ∈ program.bodies := by
  intro program code
  refine ⟨fun text htext => ?_, fun text htext => Plan.mem_bodies horder htext⟩
  exact List.mem_append_right _ (Plan.mem_functions_marching horder htext)

/-- **A node beside the others leaves their code alone.** For every graph with an order of execution
whose connections come from its nodes or from virtual sources, and every node of whatever type whose
id no node has and no connection names, put in anywhere: whatever connections name keeps the names
of its functions, its distance and displacement functions and its body, and both programs hold these
texts. Lanes play no part: a lane with the new id drives the new node only. -/
theorem code_insertion (catalog : Catalog) (settings : Settings) (g : Graph) (place : Nat)
    (n : Node) (hnew : g.IsNew n.id)
    (hsources : ∀ c ∈ g.connections, settings.isVirtual c.sourceId = false →
      ∃ m ∈ g.nodes, m.id = c.sourceId)
    (order : List String) (hsort : g.executionOrder settings = .ok order) :
    ∃ order', (g.withNodeAt place n).executionOrder settings = .ok order' ∧
      let code := (Plan.compiling catalog settings g order).codeOf
      let program := (compileOrdered catalog settings g order).program
      let program' := (compileOrdered catalog settings (g.withNodeAt place n) order').program
      ∀ m ∈ g.nodes, (∃ c ∈ g.connections, c.sourceId = m.id ∨ c.targetId = m.id) →
        (Plan.compiling catalog settings (g.withNodeAt place n) order').codeOf m.id = code m.id ∧
        (∀ text ∈ (code m.id).distance ++ (code m.id).displacement,
          text ∈ program.functions ∧ text ∈ program'.functions) ∧
        ∀ text ∈ (code m.id).body, text ∈ program.bodies ∧ text ∈ program'.bodies := by
  obtain ⟨-, rfl⟩ := Graph.executionOrder_eq_ok_iff.1 hsort
  have hsort' := hnew.executionOrder_ok place hsort
  have hagree := hnew.agree place catalog fun c hc hreal =>
    Graph.mem_nodeIds.2 (hsources c hc hreal)
  obtain ⟨front, rest, rest', hnodes, hnodes', hfront, hrest, hrest'⟩ :=
    hnew.nodes_parts place catalog settings
  refine ⟨_, hsort', ?_⟩
  intro code program program' m hm hnamed
  have hcode := hagree.codeOf_eq
    (fun _ => hagree.renamingOf_library_eq (fun _ => hnew.mem_namesOf_iff place catalog) hnodes
      hnodes' hfront hrest hrest')
    (Graph.isMentioned_iff.2 hnamed)
  have hplaced := (Graph.mem_executionOrder hsort).2 (Graph.mem_nodeIds.2 ⟨m, hm, rfl⟩)
  have hplaced' := (hnew.inserts_placeable place settings).mem_iff.2 (.inr hplaced)
  obtain ⟨hfunctions, hbody⟩ := mem_program_of_codeOf catalog settings g hplaced
  obtain ⟨hfunctions', hbody'⟩ :=
    mem_program_of_codeOf catalog settings (g.withNodeAt place n) hplaced'
  rw [hcode] at hfunctions' hbody'
  exact ⟨hcode, fun text htext => ⟨hfunctions text htext, hfunctions' text htext⟩,
    fun text htext => ⟨hbody text htext, hbody' text htext⟩⟩

/-- An eye that looks at a shape, with another shape in the background. -/
def Graph.still : Graph where
  id := "still"
  name := "still"
  version := formatVersion
  nodes := [.bare "back" "shape", .bare "eye" "eye", .bare "ball" "shape"]
  connections := [.between "1" ("ball", "d") "eye" (.port "sdf")]
  lanes := []

/-- A third shape, put in first, leaves what the eye sees as it was. -/
theorem code_still_insertion : Graph.still.IsNew "new" ∧
    Graph.still.executionOrder {} = .ok ["ball", "eye", "back"] ∧
    let g' := Graph.still.withNodeAt 0 (.bare "new" "shape")
    ∃ order', g'.executionOrder {} = .ok order' ∧
      (Plan.compiling .scene {} g' order').codeOf "ball"
        = (Plan.compiling .scene {} .still ["ball", "eye", "back"]).codeOf "ball" ∧
      ∃ text, text ∈ ((Plan.compiling .scene {} g' order').codeOf "eye").distance ∧
        text ∈ (compileOrdered .scene {} .still ["ball", "eye", "back"]).program.functions ∧
        text ∈ (compileOrdered .scene {} g' order').program.functions := by
  have hnew : Graph.still.IsNew (Node.bare "new" "shape").id := ⟨by decide, by decide⟩
  have hsources : ∀ c ∈ Graph.still.connections,
      ({} : Settings).isVirtual c.sourceId = false →
        ∃ m ∈ Graph.still.nodes, m.id = c.sourceId := by
    decide
  have hsort : Graph.still.executionOrder {} = .ok ["ball", "eye", "back"] := by decide +kernel
  obtain ⟨order', hsort', hcode⟩ := code_insertion .scene {} .still 0 (.bare "new" "shape") hnew
    hsources _ hsort
  obtain ⟨hball, -⟩ := hcode (.bare "ball" "shape") (by simp [Graph.still]) (by decide)
  obtain ⟨heye, hfunctions, -⟩ := hcode (.bare "eye" "eye") (by simp [Graph.still]) (by decide)
  have hsees : ((Plan.compiling .scene {} .still
      ["ball", "eye", "back"]).codeOf "eye").distance.head?.isSome = true := by
    decide +kernel
  obtain ⟨text, htext⟩ := Option.isSome_iff_exists.1 hsees
  have hmem := List.mem_of_mem_head? htext
  obtain ⟨hold, hnext⟩ := hfunctions text (List.mem_append_left _ hmem)
  refine ⟨hnew, hsort, order', hsort', hball, text, ?_, hold, hnext⟩
  rw [show "eye" = (Node.bare "eye" "eye").id from rfl, heye]
  exact hmem

end ShaderGraph
