import ShaderGraph.Proofs.ConnectedInputs
import ShaderGraph.Proofs.Uniforms

/-!
# Parameters with and without uniforms

A float parameter that can be adjusted while the program runs is read from a uniform; with uniforms
for parameters off it is written out as a literal. The two programs differ in nothing else: where
one reads the uniform, the other has the number that the uniform starts with.

The table of uniforms is built from all nodes of the graph and the literal from the node that the
plan executes. They agree because a plan executes the first node with an id, and the table keeps the
parameters of that node.
-/

namespace ShaderGraph

namespace Plan

/-- The plan of a graph, with or without uniforms for parameters. -/
def adjustable (catalog : Catalog) (settings : Settings) (g : Graph) (order : List String)
    (declarations : List Declaration) (on : Bool) : Plan :=
  (ofGraph catalog { settings with parameterUniforms := on } g order).declaring declarations

/-- Two values of a float parameter, the second with a literal where the first has a symbol: the
symbol is all there is, or a connected value joins it, or the parameter is automated or overridden
and nothing reads the symbol. -/
inductive Baked (plan : Plan) (n : Node) (name : String) (param : Param) (symbol literal : String) :
    Resolved → Resolved → Prop where
  | alone (hfree : plan.automation? n name = none) (hopen : plan.winner? n name = none) :
      Baked plan n name param symbol literal ⟨symbol, .uniform⟩ ⟨literal, .literal⟩
  | joined {c : Connection} {sign value : String} (hfree : plan.automation? n name = none)
      (hwinner : plan.winner? n name = some c) (hjoins : combineOf n name param ≠ .override)
      (hsign : sign ∈ [" + ", " - ", " * "]) :
      Baked plan n name param symbol literal
        ⟨"(" ++ symbol ++ sign ++ value ++ ")", .connection⟩
        ⟨"(" ++ literal ++ sign ++ value ++ ")", .connection⟩
  | overridden {c : Connection} {r : Resolved} (hfree : plan.automation? n name = none)
      (hwinner : plan.winner? n name = some c) (hjoins : combineOf n name param = .override) :
      Baked plan n name param symbol literal r r
  | automated {call : String} {r : Resolved} (hcall : plan.automation? n name = some call) :
      Baked plan n name param symbol literal r r

section

variable {plan : Plan} {n : Node} {name : String} {param : Param} {symbol literal : String}

/-- A connected value joins a symbol and a literal in the same way. -/
theorem baked_join {c : Connection} (hfree : plan.automation? n name = none)
    (hwinner : plan.winner? n name = some c) (value : String) :
    plan.Baked n name param symbol literal
      ⟨(combineOf n name param).join symbol value, .connection⟩
      ⟨(combineOf n name param).join literal value, .connection⟩ := by
  cases hcombine : combineOf n name param with
  | override => exact .overridden hfree hwinner hcombine
  | add => exact .joined hfree hwinner (by simp [hcombine]) (by simp)
  | subtract => exact .joined hfree hwinner (by simp [hcombine]) (by simp)
  | multiply => exact .joined hfree hwinner (by simp [hcombine]) (by simp)

end

variable {catalog : Catalog} {settings : Settings} {g : Graph} {order : List String}
  {declarations : List Declaration} {n : TypedNode} {name : String} {param : Param}

/-- The nodes of a plan have the uniforms of their float parameters, with their own numbers. -/
theorem uniform?_of_mem_nodes
    (hn : n ∈ (adjustable catalog settings g order declarations true).nodes)
    (he : (name, param) ∈ n.type.params.entries) (hkind : param.kind = .float) :
    (adjustable catalog settings g order declarations true).uniforms.uniform? n.node.id name
      = some (Uniform.ofParam n.node name param) := by
  obtain ⟨hnode, htype⟩ := typedNode?_eq_some_iff.1 (typedNode?_of_mem_nodes hn)
  exact UniformTable.uniform?_of_mem
    (UniformTable.ofParam_mem_params rfl hnode htype he hkind)

/-- With uniforms for parameters, a parameter has its uniform. -/
theorem settled_on (hn : n ∈ (adjustable catalog settings g order declarations true).nodes)
    (he : (name, param) ∈ n.type.params.entries) (hkind : param.kind = .float) :
    (adjustable catalog settings g order declarations true).settled n.node name param
      = ⟨(Uniform.ofParam n.node name param).name, .uniform⟩ := by
  rw [settled, UniformTable.param?_eq, uniform?_of_mem_nodes hn he hkind]
  rfl

/-- Uniforms for parameters change the value of a float parameter and no warning. -/
theorem resolveFloat_baked
    (hn : n ∈ (adjustable catalog settings g order declarations true).nodes)
    (he : (name, param) ∈ n.type.params.entries) (hkind : param.kind = .float) :
    let plan := adjustable catalog settings g order declarations
    let u := Uniform.ofParam n.node name param
    ((plan true).resolveFloat n.node name param).warnings
      = ((plan false).resolveFloat n.node name param).warnings ∧
    (plan true).Baked n.node name param u.name (Glsl.floatLiteral u.defaultValue)
      ((plan true).resolveFloat n.node name param).value
      ((plan false).resolveFloat n.node name param).value := by
  intro plan u
  -- neither automation nor the choice among connections nor what they bring reads the parameters
  have hautomation :
      (plan false).automation? n.node name = (plan true).automation? n.node name := rfl
  have hwinner : (plan false).winner? n.node name = (plan true).winner? n.node name := rfl
  have hconnected :
      ∀ c, (plan false).connectedParam n.node c = (plan true).connectedParam n.node c :=
    fun _ => rfl
  have hon : (plan true).settled n.node name param = ⟨u.name, .uniform⟩ := settled_on hn he hkind
  have hoff : (plan false).settled n.node name param
      = ⟨Glsl.floatLiteral u.defaultValue, .literal⟩ := rfl
  simp only [resolveFloat, hautomation, hwinner, hconnected, hon, hoff]
  cases hcall : (plan true).automation? n.node name with
  | some call => exact ⟨rfl, .automated hcall⟩
  | none =>
    cases hwins : (plan true).winner? n.node name with
    | none => exact ⟨rfl, .alone hcall hwins⟩
    | some c => exact ⟨rfl, baked_join hcall hwins _⟩

/-- Parameters of other kinds have no uniforms. -/
theorem resolve_of_ne_float (hkind : param.kind ≠ .float) (n : Node) (on : Bool) :
    (adjustable catalog settings g order declarations on).resolve n name param
      = (adjustable catalog settings g order declarations false).resolve n name param := by
  cases h : param.kind with
  | float => exact absurd h hkind
  | int => simp only [resolve, h]
  | string => simp only [resolve, h]
  | array => simp only [resolve, h]

end Plan

/-- **A literal stands for the uniform that starts with its number.** For every graph, catalog and
order, and whatever is declared: with and without uniforms for parameters, the same nodes are
executed, the same variables declared and the same warnings given, and every parameter has the same
value but for one thing. Where the value of a float parameter is its uniform, or has its uniform
joined with a connected value, there stands the number of that uniform in the table as a literal.
If no other uniform has its symbol, that number is the one listed for it. -/
theorem parameters_baked (catalog : Catalog) (settings : Settings) (g : Graph) (order : List String)
    (declarations : List Declaration) :
    let plan := Plan.adjustable catalog settings g order declarations
    let table := (plan true).uniforms
    (plan true).nodes = (plan false).nodes ∧
    (plan true).declarations = (plan false).declarations ∧
    ∀ n ∈ (plan true).nodes, ∀ name param, (name, param) ∈ n.type.params.entries →
      let adjusted := (plan true).resolve n.node name param
      let fixed := (plan false).resolve n.node name param
      adjusted.warnings = fixed.warnings ∧
      (param.kind ≠ .float → adjusted.value = fixed.value) ∧
      (param.kind = .float → ∃ u, table.uniform? n.node.id name = some u ∧
        table.param? n.node.id name = some u.name ∧
        (plan true).Baked n.node name param u.name (Glsl.floatLiteral u.defaultValue)
          adjusted.value fixed.value ∧
        ((∀ v ∈ table.all, v.name = u.name → v = u) → ∀ symbols, u.name ∈ symbols →
          (table.used symbols).filter (fun v => decide (v.name = u.name)) = [u])) := by
  intro plan table
  refine ⟨rfl, rfl, fun n hn name param he => ?_⟩
  intro adjusted fixed
  by_cases hkind : param.kind = .float
  · have hfound : table.uniform? n.node.id name = some (Uniform.ofParam n.node name param) :=
      Plan.uniform?_of_mem_nodes hn he hkind
    have hadjusted : adjusted = (plan true).resolveFloat n.node name param := by
      simp only [adjusted, Plan.resolve, hkind]
    have hfixed : fixed = (plan false).resolveFloat n.node name param := by
      simp only [fixed, Plan.resolve, hkind]
    obtain ⟨hwarnings, hbaked⟩ := Plan.resolveFloat_baked hn he hkind
    rw [hadjusted, hfixed]
    refine ⟨hwarnings, fun hne => absurd hkind hne, fun _ => ⟨_, hfound, ?_, hbaked, ?_⟩⟩
    · rw [UniformTable.param?_eq, hfound]
      rfl
    · intro hown symbols hused
      have hall : Uniform.ofParam n.node name param ∈ table.all :=
        List.mem_append_left _ (List.mem_of_find?_eq_some hfound)
      exact UniformTable.filter_name_used_of_unique hall hown hused
  · have hsame : adjusted = fixed := Plan.resolve_of_ne_float hkind n.node true
    rw [hsame]
    exact ⟨rfl, fun _ => rfl, fun h => absurd h hkind⟩

/-- A light and a dimmer. -/
def Catalog.dimmers : Catalog := .ofList
  [(NodeType.bare "lamp" "source").withOutput (.plain "light" .float),
    (NodeType.bare "dimmer" "tool").withParam "gain" (.float 2)]

/-- A dimmer whose gain is set to a text. -/
def Node.dimmer : Node :=
  ((Node.bare "d" "dimmer").withParam "gain" (.text "high")).withCombine "gain" .add

/-- A light is added to the gain of a dimmer. Another dimmer has the same id. -/
def Graph.dimmed : Graph where
  id := "dimmed"
  name := "dimmed"
  version := formatVersion
  nodes := [.bare "l" "lamp", .dimmer, (Node.bare "d" "dimmer").withParam "gain" (.number 7)]
  connections := [.between "1" ("l", "light") "d" (.parameter "gain")]
  lanes := []

/-- The light is added to the uniform of the dimmer, or to the default that it starts with. -/
theorem parameters_baked_dimmed :
    let plan := Plan.adjustable .dimmers {} .dimmed ["l", "d"] [.variable .float "node_l_light"]
    let gain := fun on => ((plan on).resolve .dimmer "gain" (.float 2)).value
    (∃ t, (⟨.dimmer, t⟩ : TypedNode) ∈ (plan true).nodes ∧ ("gain", .float 2) ∈ t.params.entries) ∧
    gain true = ⟨"(udGain + node_l_light)", .connection⟩ ∧
    gain false = ⟨"(2.0 + node_l_light)", .connection⟩ ∧
    ∃ u, (plan true).uniforms.uniform? "d" "gain" = some u ∧
      (plan true).Baked .dimmer "gain" (.float 2) u.name (Glsl.floatLiteral u.defaultValue)
        (gain true) (gain false) := by
  intro plan gain
  have hnode : (⟨.dimmer, (NodeType.bare "dimmer" "tool").withParam "gain" (.float 2)⟩ : TypedNode)
      ∈ (plan true).nodes :=
    List.mem_filterMap.2 ⟨"d", by decide, rfl⟩
  obtain ⟨-, -, hparams⟩ := parameters_baked .dimmers {} .dimmed ["l", "d"]
    [.variable .float "node_l_light"]
  obtain ⟨-, -, hfloat⟩ := hparams _ hnode "gain" (.float 2) List.mem_cons_self
  obtain ⟨u, hu, -, hbaked, -⟩ := hfloat rfl
  refine ⟨⟨_, hnode, List.mem_cons_self⟩, ?_, ?_, u, hu, hbaked⟩
  · decide +kernel
  · decide +kernel

end ShaderGraph
