import ShaderGraph.Proofs.ConnectedInputs
import ShaderGraph.Proofs.Conversions
import ShaderGraph.Proofs.UsedUniforms

/-!
# The node that a program ends in

A program ends in the best of the nodes of the output category: one that nothing reads, if there is
one, and the latest of those. Without any it ends in the latest node with an output for a color, and
without that in none (`Plan.finalColor_cases`). The three searches go backwards through the order of
execution, so each finds the last node with a property (`LastWith`).

The color is read from an output of the node or from its input. Of the variables that it names in
this way all are declared, whatever the graph: the outputs of a node in the plan always are, and a
connection is read only if its variable is. What is left is an input that nothing usable is
connected to; its fallback is free to say anything.
-/

namespace ShaderGraph

/-! ## The last with a property -/

section Last

variable {α β : Type} {items : List α} {a : α} {P Q : α → Prop}

/-- An element with a property, and no later one has it. -/
def LastWith (P : α → Prop) (items : List α) (a : α) : Prop :=
  ∃ before after, items = before ++ a :: after ∧ P a ∧ ∀ b ∈ after, ¬P b

theorem LastWith.mem (h : LastWith P items a) : a ∈ items := by
  obtain ⟨before, after, rfl, -⟩ := h
  simp

theorem LastWith.holds (h : LastWith P items a) : P a := by
  obtain ⟨before, after, -, ha, -⟩ := h
  exact ha

/-- It is also the last with a property that it has, if only elements with the first one have it. -/
theorem LastWith.imp (h : LastWith P items a) (ha : Q a) (hlater : ∀ b, Q b → P b) :
    LastWith Q items a := by
  obtain ⟨before, after, hsplit, -, hafter⟩ := h
  exact ⟨before, after, hsplit, ha, fun b hb hQ => hafter b hb (hlater b hQ)⟩

/-- Searching backwards finds the last. -/
theorem lastWith_of_find? {p : α → Bool} (h : items.reverse.find? p = some a) :
    LastWith (fun b => p b = true) items a := by
  obtain ⟨ha, front, back, hsplit, hfront⟩ := List.find?_eq_some_iff_append.1 h
  refine ⟨back.reverse, front.reverse, ?_, ha, fun b hb => ?_⟩
  · rw [← List.reverse_reverse items, hsplit]
    simp
  · simpa using hfront b (List.mem_reverse.1 hb)

theorem lastWith_of_findSome? {f : α → Option β} {b : β}
    (h : items.reverse.findSome? f = some b) :
    ∃ a, LastWith (fun a => (f a).isSome = true) items a ∧ f a = some b := by
  obtain ⟨front, a, back, hsplit, ha, hfront⟩ := List.findSome?_eq_some_iff.1 h
  refine ⟨a, ⟨back.reverse, front.reverse, ?_, by simp [ha], fun x hx => ?_⟩, ha⟩
  · rw [← List.reverse_reverse items, hsplit]
    simp
  · simp [hfront x (List.mem_reverse.1 hx)]

end Last

/-! ## The choice -/

/-- A type has an output for a color. -/
def NodeType.HasColor (t : NodeType) : Prop :=
  ∃ port ∈ t.outputs, port.type = .vec3 ∨ port.type = .vec4

theorem ValueType.isColor_iff {type : ValueType} :
    type.isColor = true ↔ type = .vec3 ∨ type = .vec4 := by
  cases type <;> simp [isColor]

theorem NodeType.isSome_colorOutput? {t : NodeType} :
    t.colorOutput?.isSome = true ↔ t.HasColor := by
  simp only [colorOutput?, List.find?_isSome, HasColor, ValueType.isColor_iff]

namespace Plan

variable {plan : Plan} {n : TypedNode}

/-- A node of the output category. -/
def IsTerminal (plan : Plan) (n : TypedNode) : Prop :=
  n.type.category = plan.settings.outputCategory

/-- A connection goes out of a node. -/
def IsRead (plan : Plan) (n : TypedNode) : Prop :=
  ∃ c ∈ plan.graph.connections, c.sourceId = n.node.id

theorem hasOutgoing_iff : plan.graph.hasOutgoing n.node.id = true ↔ plan.IsRead n := by
  simp [Graph.hasOutgoing, IsRead]

/-- The best node of the output category: nothing reads it unless something reads all of them, and
none as good in this respect comes later. -/
structure BestTerminal (plan : Plan) (n : TypedNode) : Prop where
  terminal : plan.IsTerminal n
  unread : (∃ m ∈ plan.nodes, plan.IsTerminal m ∧ ¬plan.IsRead m) → ¬plan.IsRead n
  latest : LastWith (fun m => plan.IsTerminal m ∧ (plan.IsRead m ↔ plan.IsRead n)) plan.nodes n

/-- Both searches for the node go backwards through all nodes. -/
theorem terminal?_eq (plan : Plan) : plan.terminal? =
    (plan.nodes.reverse.find? fun n => n.type.category == plan.settings.outputCategory
      && !plan.graph.hasOutgoing n.node.id).or
    (plan.nodes.reverse.find? fun n => n.type.category == plan.settings.outputCategory) := by
  rw [terminal?, terminals, ← List.filter_reverse, List.find?_filter, List.head?_filter]
  simp only [Bool.decide_and, Bool.decide_eq_true]

/-- **The node of the output category that is taken is the best of them.** -/
theorem bestTerminal_of_terminal? (h : plan.terminal? = some n) : plan.BestTerminal n := by
  rw [terminal?_eq, Option.or_eq_some_iff] at h
  rcases h with h | ⟨hnone, h⟩
  · have hlast := lastWith_of_find? h
    simp only [Bool.and_eq_true, beq_iff_eq, Bool.not_eq_true', ← Bool.not_eq_true,
      hasOutgoing_iff] at hlast
    have hunread : ¬plan.IsRead n := hlast.holds.2
    refine ⟨hlast.holds.1, fun _ => hunread, hlast.imp ⟨hlast.holds.1, Iff.rfl⟩ ?_⟩
    rintro m ⟨hterminal, hsame⟩
    exact ⟨hterminal, fun hread => hunread (hsame.1 hread)⟩
  · -- no node of the category is unread, so the latest of all is taken
    have hread : ∀ m ∈ plan.nodes, plan.IsTerminal m → plan.IsRead m := by
      intro m hm hterminal
      by_contra hunread
      refine List.find?_eq_none.1 hnone m (List.mem_reverse.2 hm) ?_
      simp only [Bool.and_eq_true, beq_iff_eq, Bool.not_eq_true', ← Bool.not_eq_true,
        hasOutgoing_iff]
      exact ⟨hterminal, hunread⟩
    have hlast := lastWith_of_find? h
    simp only [beq_iff_eq] at hlast
    refine ⟨hlast.holds, ?_, hlast.imp ⟨hlast.holds, Iff.rfl⟩ fun m hm => hm.1⟩
    rintro ⟨m, hm, hterminal, hunread⟩
    exact absurd (hread m hm hterminal) hunread

theorem not_isTerminal_of_terminal? (h : plan.terminal? = none) :
    ∀ n ∈ plan.nodes, ¬plan.IsTerminal n := by
  rw [terminal?_eq, Option.or_eq_none_iff] at h
  intro n hn
  simpa [IsTerminal] using List.find?_eq_none.1 h.2 n (List.mem_reverse.2 hn)

theorem latestColor?_eq (plan : Plan) : plan.latestColor? = plan.nodes.reverse.findSome?
    fun n => n.type.colorOutput?.map fun port => (n.node, port) := by
  rw [latestColor?, List.getLast?_eq_head?_reverse, ← List.filterMap_reverse, List.head?_filterMap]

/-- The color is that of the latest node with an output for one. -/
theorem lastWith_of_latestColor? {node : Node} {port : Port}
    (h : plan.latestColor? = some (node, port)) :
    ∃ n, LastWith (·.type.HasColor) plan.nodes n ∧ n.node = node ∧
      n.type.colorOutput? = some port := by
  rw [latestColor?_eq] at h
  obtain ⟨n, hlast, hn⟩ := lastWith_of_findSome? h
  simp only [Option.isSome_map, NodeType.isSome_colorOutput?] at hlast
  obtain ⟨port', hport, heq⟩ := Option.map_eq_some_iff.1 hn
  obtain ⟨rfl, rfl⟩ := Prod.mk.inj heq
  exact ⟨n, hlast, rfl, hport⟩

theorem not_hasColor_of_latestColor? (h : plan.latestColor? = none) :
    ∀ n ∈ plan.nodes, ¬n.type.HasColor := by
  rw [latestColor?_eq] at h
  intro n hn
  have hnone := List.findSome?_eq_none_iff.1 h n (List.mem_reverse.2 hn)
  rw [Option.map_eq_none_iff] at hnone
  rw [← NodeType.isSome_colorOutput?, hnone]
  simp

theorem value_finalColor (plan : Plan) : plan.finalColor.value =
    match plan.terminal? with
    | some n => ⟨some n.node.id, (plan.terminalColor n).value⟩
    | none => plan.colorWithoutTerminal.value := by
  simp only [finalColor]
  cases plan.terminal? with
  | some n => split <;> rfl
  | none => split <;> rfl

/-- **How a program ends**: in the best node of the output category, else in the latest node with an
output for a color, else in none. -/
theorem finalColor_cases (plan : Plan) :
    (∃ n, plan.BestTerminal n ∧
      plan.finalColor.value = ⟨some n.node.id, (plan.terminalColor n).value⟩) ∨
    ((∀ n ∈ plan.nodes, ¬plan.IsTerminal n) ∧ ∃ n port,
      LastWith (·.type.HasColor) plan.nodes n ∧ n.type.colorOutput? = some port ∧
      plan.finalColor.value = ⟨some n.node.id, outputColor n.node port⟩) ∨
    ((∀ n ∈ plan.nodes, ¬plan.IsTerminal n ∧ ¬n.type.HasColor) ∧
      plan.finalColor.value = ⟨none, black⟩) := by
  rw [value_finalColor]
  cases hterminal : plan.terminal? with
  | some n => exact Or.inl ⟨n, bestTerminal_of_terminal? hterminal, rfl⟩
  | none =>
    have hnone := not_isTerminal_of_terminal? hterminal
    refine Or.inr ?_
    simp only [colorWithoutTerminal]
    cases hcolor : plan.latestColor? with
    | some found =>
      obtain ⟨n, hlast, hnode, hport⟩ := lastWith_of_latestColor? hcolor
      refine Or.inl ⟨hnone, n, found.2, hlast, hport, ?_⟩
      rw [hnode]
      rfl
    | none =>
      exact Or.inr ⟨fun n hn => ⟨hnone n hn, not_hasColor_of_latestColor? hcolor n hn⟩, rfl⟩

/-- A program ends in a node iff there is one to choose. -/
theorem isSome_finalNode_iff (plan : Plan) : plan.finalColor.value.nodeId.isSome = true ↔
    ∃ n ∈ plan.nodes, plan.IsTerminal n ∨ n.type.HasColor := by
  rcases plan.finalColor_cases with ⟨n, hn, heq⟩ | ⟨-, n, port, hn, -, heq⟩ | ⟨hnone, heq⟩
  · simp only [heq, Option.isSome_some, true_iff]
    exact ⟨n, hn.latest.mem, Or.inl hn.terminal⟩
  · simp only [heq, Option.isSome_some, true_iff]
    exact ⟨n, hn.mem, Or.inr hn.holds⟩
  · simp only [heq, Option.isSome_none, Bool.false_eq_true, false_iff]
    rintro ⟨n, hn, h⟩
    exact h.elim (hnone n hn).1 (hnone n hn).2

theorem exists_bestTerminal (h : ∃ n ∈ plan.nodes, plan.IsTerminal n) :
    ∃ n, plan.BestTerminal n ∧ plan.finalColor.value.nodeId = some n.node.id := by
  obtain ⟨m, hm, hterminal⟩ := h
  rcases plan.finalColor_cases with ⟨n, hn, heq⟩ | ⟨hnone, -⟩ | ⟨hnone, -⟩
  · exact ⟨n, hn, by rw [heq]⟩
  · exact absurd hterminal (hnone m hm)
  · exact absurd hterminal (hnone m hm).1

theorem exists_lastWith_hasColor (hterminal : ∀ n ∈ plan.nodes, ¬plan.IsTerminal n)
    (h : ∃ n ∈ plan.nodes, n.type.HasColor) :
    ∃ n, LastWith (·.type.HasColor) plan.nodes n ∧
      plan.finalColor.value.nodeId = some n.node.id := by
  obtain ⟨m, hm, hcolor⟩ := h
  rcases plan.finalColor_cases with ⟨n, hn, -⟩ | ⟨-, n, port, hn, -, heq⟩ | ⟨hnone, -⟩
  · exact absurd hn.terminal (hterminal n hn.latest.mem)
  · exact ⟨n, hn, by rw [heq]⟩
  · exact absurd hcolor (hnone m hm).2

/-- A program that ends in no node is black. -/
theorem expr_of_finalNode_eq_none (h : plan.finalColor.value.nodeId = none) :
    plan.finalColor.value.expr = black := by
  rcases plan.finalColor_cases with ⟨n, -, heq⟩ | ⟨-, n, port, -, -, heq⟩ | ⟨-, heq⟩
  · rw [heq] at h
    cases h
  · rw [heq] at h
    cases h
  · rw [heq]

/-! ## Where the color comes from -/

/-- The value that is connected to an input, in the type of the input: the variable of an output, if
it is declared, or the uniform of a virtual source. -/
inductive ConnectedValue (plan : Plan) (n : Node) (port : Port) : String → Prop where
  | output {c : Connection} (hc : plan.graph.portConnection? n.id port.name = some c)
      (hreal : plan.isVirtual c.sourceId = false) (hdeclared : sourceSymbol c ∈ plan.declared) :
      ConnectedValue plan n port (Glsl.convert (sourceSymbol c)
        ((plan.outputType? c.sourceId c.sourcePort).getD .float) port.type)
  | virtual {c : Connection} {symbol : String}
      (hc : plan.graph.portConnection? n.id port.name = some c)
      (hvirtual : plan.isVirtual c.sourceId = true)
      (hsymbol : plan.uniforms.virtual? c.sourceId = some symbol) :
      ConnectedValue plan n port (Glsl.convert symbol .float port.type)

/-- The color of a node: that of its output for one, else what is connected to its input, else the
fallback of the input, and black without an input. -/
inductive ColorOf (plan : Plan) (n : TypedNode) : String → Prop where
  | output {port : Port} (hport : n.type.colorOutput? = some port) :
      ColorOf plan n (outputColor n.node port)
  | input {port : Port} {value : String} (houtput : n.type.colorOutput? = none)
      (hport : n.type.colorInput? = some port) (hvalue : plan.ConnectedValue n.node port value) :
      ColorOf plan n (Glsl.toColor value port.type)
  | fallback {port : Port} (houtput : n.type.colorOutput? = none)
      (hport : n.type.colorInput? = some port)
      (hopen : (plan.connected n.node port).value = none) :
      ColorOf plan n (Glsl.toColor
        (fallback n.node port (plan.resolveAll n).value (some .main)).value port.type)
  | nothing (houtput : n.type.colorOutput? = none) (hport : n.type.colorInput? = none) :
      ColorOf plan n black

/-- The color of a node is the fallback of an input that nothing usable is connected to. -/
def FallsBack (plan : Plan) (n : TypedNode) : Prop :=
  n.type.colorOutput? = none ∧
    ∃ port, n.type.colorInput? = some port ∧ (plan.connected n.node port).value = none

theorem connectedValue_of_connected {node : Node} {port : Port} {value : String}
    (h : (plan.connected node port).value = some value) : plan.ConnectedValue node port value := by
  rw [connected] at h
  split at h
  · rename_i c hc
    simp only [connectedInput] at h
    split at h
    · rename_i hvirtual
      obtain ⟨symbol, hsymbol, rfl⟩ := Option.map_eq_some_iff.1 h
      exact .virtual hc hvirtual hsymbol
    · rename_i hreal
      split at h
      · rename_i hdeclares
        obtain rfl := Option.some.inj h
        exact .output hc (Bool.not_eq_true _ ▸ hreal) (List.contains_iff_mem.1 hdeclares)
      · cases h
  · cases h

theorem colorOf_terminalColor (plan : Plan) (n : TypedNode) :
    plan.ColorOf n (plan.terminalColor n).value := by
  rw [terminalColor]
  split
  · rename_i port _ hport
    exact .output hport
  · rename_i port houtput hport
    rw [inputColor, Warned.value_bind]
    cases hvalue : (plan.connected n.node port).value with
    | none => exact .fallback houtput hport hvalue
    | some value => exact .input houtput hport (connectedValue_of_connected hvalue)
  · rename_i houtput hport
    exact .nothing houtput hport

/-- Nodes of a plan with one id are the same. -/
theorem eq_of_mem_nodes {m : TypedNode} (hm : m ∈ plan.nodes) (hn : n ∈ plan.nodes)
    (h : m.node.id = n.node.id) : m = n := by
  have hfound := typedNode?_of_mem_nodes hm
  rw [h, typedNode?_of_mem_nodes hn] at hfound
  exact (Option.some.inj hfound).symm

/-- The program shows the color of the node that it ends in. -/
theorem colorOf_finalColor (hn : n ∈ plan.nodes)
    (h : plan.finalColor.value.nodeId = some n.node.id) :
    plan.ColorOf n plan.finalColor.value.expr := by
  rcases plan.finalColor_cases with ⟨m, hm, heq⟩ | ⟨-, m, port, hm, hport, heq⟩ | ⟨-, heq⟩
  · rw [heq] at h ⊢
    obtain rfl := eq_of_mem_nodes hm.latest.mem hn (Option.some.inj h)
    exact colorOf_terminalColor plan m
  · rw [heq] at h ⊢
    obtain rfl := eq_of_mem_nodes hm.mem hn (Option.some.inj h)
    exact .output hport
  · rw [heq] at h
    cases h

end Plan

/-! ## The variables in the color -/

namespace Symbol

variable {nodeId port : String}

/-- The variable for an output is an identifier, whatever the id and the name. -/
theorem isIdentifier_output (nodeId port : String) :
    Text.isIdentifier (output nodeId port).toList = true := by
  rw [Text.isIdentifier, List.all_eq_true.2 (isWordChar_of_mem_output nodeId port), Bool.and_true,
    output]
  simp only [String.toList_append]
  rfl

theorem head?_output : (output nodeId port).toList.head? = some 'n' := by
  simp [output]

theorem output_not_mem_conversionNames : output nodeId port ∉ Glsl.conversionNames := by
  intro h
  have hall : (Glsl.conversionNames.all fun x => x.toList.head? != some 'n') = true := by
    decide +kernel
  simpa [head?_output] using List.all_eq_true.1 hall _ h

theorem output_ne_virtualUniform {mark sourceId : String} :
    output nodeId port ≠ virtualUniform mark sourceId := by
  intro h
  have hhead : (virtualUniform mark sourceId).toList.head? = some 'u' := by simp [virtualUniform]
  rw [← h, head?_output] at hhead
  exact absurd hhead (by decide)

/-- In a text that holds a symbol, the symbol is the only variable that may be for an output. -/
theorem output_eq_of_holds {symbol text : String} (hsymbol : Text.isIdentifier symbol.toList = true)
    (htext : Glsl.Holds symbol text) (h : output nodeId port ∈ Glsl.identifiers text) :
    output nodeId port = symbol := by
  rcases htext.names _ h with h | h
  · rw [Glsl.identifiers_eq, (Glsl.names_of_isIdentifier hsymbol).1] at h
    simpa using h
  · exact absurd h output_not_mem_conversionNames

end Symbol

namespace Plan

variable {catalog : Catalog} {settings : Settings} {g : Graph} {order : List String}
variable {n : TypedNode} {expr : String}

/-- The only variable for an output in a connected value is the one that is connected, and that is
declared. -/
theorem ConnectedValue.declared {node : Node} {port : Port} {value nodeId name : String}
    (h : (compiling catalog settings g order).ConnectedValue node port value)
    (hname : Symbol.output nodeId name ∈ Glsl.identifiers (Glsl.toColor value port.type)) :
    Symbol.output nodeId name ∈ (compiling catalog settings g order).declared := by
  cases h with
  | @output c hc hreal hdeclared =>
    have hsymbol := Symbol.isIdentifier_output c.sourceId c.sourcePort
    rwa [Symbol.output_eq_of_holds hsymbol
      (((Glsl.Holds.self hsymbol).convert _ _).convert _ _) hname]
  | @virtual c symbol hc hvirtual hsymbol =>
    -- the symbol of a virtual source is no variable for an output
    obtain ⟨u, hu, rfl⟩ := Option.map_eq_some_iff.1 hsymbol
    obtain ⟨c', -, rfl⟩ := UniformTable.exists_of_mem_virtuals (List.mem_of_find?_eq_some hu)
    have hsymbol := Symbol.isIdentifier_virtualUniform settings.virtualMark c'.sourceId
    exact absurd (Symbol.output_eq_of_holds hsymbol
      (((Glsl.Holds.self hsymbol).convert _ _).convert _ _) hname)
      Symbol.output_ne_virtualUniform

/-- **The variables in a color are declared**, unless it is a fallback. -/
theorem ColorOf.declared (hn : n ∈ (compiling catalog settings g order).nodes)
    (h : (compiling catalog settings g order).ColorOf n expr) :
    (compiling catalog settings g order).FallsBack n ∨
    ∀ nodeId port, Symbol.output nodeId port ∈ Glsl.identifiers expr →
      Symbol.output nodeId port ∈ (compiling catalog settings g order).declared := by
  cases h with
  | @output port hport =>
    refine Or.inr fun nodeId name hname => ?_
    have hsymbol := Symbol.isIdentifier_output n.node.id port.name
    rw [Symbol.output_eq_of_holds hsymbol ((Glsl.Holds.self hsymbol).convert _ _) hname]
    have hd : Declaration.variable port.type (Symbol.output n.node.id port.name)
        ∈ Declaration.ofNode n :=
      List.mem_append_left _ (List.mem_map.2 ⟨port, List.mem_of_find?_eq_some hport, rfl⟩)
    exact mem_symbols_of_mem_own (mem_own_of_ofNode hn hd)
  | input houtput hport hvalue => exact Or.inr fun nodeId name => hvalue.declared
  | fallback houtput hport hopen => exact Or.inl ⟨houtput, _, hport, hopen⟩
  | nothing houtput hport =>
    refine Or.inr fun nodeId name hname => ?_
    have hblack : Glsl.identifiers black = ["vec3"] := by decide +kernel
    rw [hblack, List.mem_singleton] at hname
    have hmem : Symbol.output nodeId name ∈ Glsl.conversionNames := by
      rw [hname]
      decide
    exact absurd hmem Symbol.output_not_mem_conversionNames

end Plan

/-- **A program ends in the best node there is, and its color is declared.** It ends in a node iff
some node of the plan is of the output category or has an output for a color. With nodes of the
output category it ends in the best of them, else in the latest with an output for a color. The
color of a compiled program is that of this node, and every variable for an output in it is
declared, unless nothing usable is connected to the input that it is read from and the fallback of
the input stands in. -/
theorem final_color_chosen (plan : Plan) (catalog : Catalog) (settings : Settings) (g : Graph)
    (order : List String) :
    (plan.finalColor.value.nodeId.isSome = true ↔
      ∃ n ∈ plan.nodes, plan.IsTerminal n ∨ n.type.HasColor) ∧
    ((∃ n ∈ plan.nodes, plan.IsTerminal n) →
      ∃ n, plan.BestTerminal n ∧ plan.finalColor.value.nodeId = some n.node.id) ∧
    ((∀ n ∈ plan.nodes, ¬plan.IsTerminal n) → (∃ n ∈ plan.nodes, n.type.HasColor) →
      ∃ n, LastWith (·.type.HasColor) plan.nodes n ∧
        plan.finalColor.value.nodeId = some n.node.id) ∧
    let compiling := Plan.compiling catalog settings g order
    let result := compileOrdered catalog settings g order
    result.finalNode = compiling.finalColor.value.nodeId ∧
    (result.finalNode = none → result.program.color = black) ∧
    ∀ n ∈ compiling.nodes, result.finalNode = some n.node.id →
      compiling.ColorOf n result.program.color ∧
      (compiling.FallsBack n ∨
        ∀ nodeId port, Symbol.output nodeId port ∈ Glsl.identifiers result.program.color →
          Symbol.output nodeId port ∈ compiling.declared) := by
  refine ⟨plan.isSome_finalNode_iff, Plan.exists_bestTerminal, Plan.exists_lastWith_hasColor, rfl,
    fun hnone => ?_, fun n hn hfinal => ?_⟩
  · have hnone : (Plan.compiling catalog settings g order).finalColor.value.nodeId = none := hnone
    exact Plan.expr_of_finalNode_eq_none hnone
  · have hcolor := Plan.colorOf_finalColor hn hfinal
    exact ⟨hcolor, hcolor.declared hn⟩

/-- A graph with two screens that show one light. The later one is read, though by a connection that
leads nowhere. -/
def Graph.screens : Graph where
  id := "screens"
  name := "screens"
  version := formatVersion
  nodes := [.bare "s" "screen", .bare "t" "screen", .bare "l" "lamp"]
  connections := [.between "1" ("l", "light") "s" (.port "color"),
    .between "2" ("l", "light") "t" (.port "color"),
    .between "3" ("t", "out") "nowhere" (.port "in")]
  lanes := []

/-- The program ends in the earlier screen, and the light that it shows is declared. -/
theorem final_color_screens :
    Graph.screens.executionOrder {} = .ok ["l", "s", "t"] ∧
    let plan := Plan.compiling .stage {} .screens ["l", "s", "t"]
    let result := compileOrdered .stage {} .screens ["l", "s", "t"]
    (∃ n, plan.BestTerminal n ∧ n.node.id = "s") ∧ result.finalNode = some "s" ∧
    result.program.color = "(vec4(node_l_light, 0.0, 1.0)).xyz" ∧
    "node_l_light" ∈ plan.declared := by
  have horder : Graph.screens.executionOrder {} = .ok ["l", "s", "t"] := by decide +kernel
  have hfinal : (compileOrdered .stage {} .screens ["l", "s", "t"]).finalNode = some "s" := by
    decide +kernel
  have hcolor : (compileOrdered .stage {} .screens ["l", "s", "t"]).program.color
      = "(vec4(node_l_light, 0.0, 1.0)).xyz" := by decide +kernel
  obtain ⟨screen, hscreen⟩ : ∃ t, Catalog.stage.find? "screen" = some t := ⟨_, rfl⟩
  have hnode : (⟨.bare "s" "screen", screen⟩ : TypedNode)
      ∈ (Plan.compiling .stage {} .screens ["l", "s", "t"]).nodes :=
    List.mem_filterMap.2 ⟨"s", by decide, Plan.typedNode?_eq_some_iff.2 ⟨rfl, hscreen⟩⟩
  cases hscreen
  obtain ⟨-, hbest, -, hsame, -, hvariables⟩ := final_color_chosen
    (Plan.compiling .stage {} .screens ["l", "s", "t"]) .stage {} .screens ["l", "s", "t"]
  obtain ⟨n, hn, hid⟩ := hbest ⟨_, hnode, rfl⟩
  rw [← hsame, hfinal] at hid
  obtain ⟨-, hfallback | hdeclared⟩ := hvariables _ hnode hfinal
  · obtain ⟨-, port, hport, hopen⟩ := hfallback
    cases hport
    exact absurd hopen (by decide +kernel)
  · have hlight : Symbol.output "l" "light" = "node_l_light" := by decide +kernel
    refine ⟨horder, ⟨n, hn, (Option.some.inj hid).symm⟩, hfinal, hcolor, ?_⟩
    rw [← hlight]
    refine hdeclared "l" "light" ?_
    rw [hcolor, hlight]
    decide +kernel

end ShaderGraph
