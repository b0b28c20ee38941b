import ShaderGraph.Compile
import ShaderGraph.Proofs.Declarations
import ShaderGraph.Proofs.EvaluatorTexts
import ShaderGraph.Proofs.ExecutionOrder
import ShaderGraph.Proofs.Uniforms
import Mathlib.Data.List.Forall2

/-!
# Reference closure

The stages of a compilation are written apart from each other: one orders the nodes, one declares
variables, one offers uniforms, one writes evaluators, and one writes expressions that use all of
these. `Complete` is what they owe each other, and a plan made from an order of execution has it,
however malformed the graph (`complete_compiling`). `Grounded` says of an expression that every
symbol in it is defined, and in a complete plan every parameter resolves to such an expression and
without a warning.
-/

namespace ShaderGraph

/-! ## The first of the highest -/

section Highest

variable {α : Type} {rank : α → Option Nat}

/-- What holds of the best so far, and of every element with its rank, holds of the best in the
end. -/
theorem foldl_climb {holds : Nat × α → Prop} {items : List α} {best : Option (Nat × α)}
    (hbest : ∀ b ∈ best, holds b) (hitems : ∀ a ∈ items, ∀ r ∈ rank a, holds (r, a)) :
    ∀ b ∈ items.foldl (highest?.climb rank) best, holds b := by
  induction items generalizing best with
  | nil => exact hbest
  | cons a rest ih =>
    refine ih ?_ fun x hx => hitems x (List.mem_cons_of_mem _ hx)
    intro b hb
    have ha : ∀ r ∈ rank a, holds (r, a) := hitems a List.mem_cons_self
    unfold highest?.climb at hb
    split at hb
    · exact hbest b hb
    · rename_i r hr
      obtain rfl := Option.some.inj hb
      exact ha r hr
    · rename_i r old hr
      split at hb
      · obtain rfl := Option.some.inj hb
        exact ha r hr
      · exact hbest b hb

/-- The highest is one of the elements, and it has a rank. -/
theorem mem_of_highest? {items : List α} {a : α} (h : highest? rank items = some a) :
    a ∈ items ∧ ∃ r, rank a = some r := by
  obtain ⟨⟨r, b⟩, hb, rfl⟩ := Option.map_eq_some_iff.1 h
  have hholds : ∀ b ∈ items.foldl (highest?.climb rank) none,
      b.2 ∈ items ∧ ∃ r, rank b.2 = some r :=
    foldl_climb (by simp) fun a ha r hr => ⟨ha, r, hr⟩
  exact hholds (r, b) hb

end Highest

theorem mem_of_lastIndex? {a : String} {items : List String} {i : Nat}
    (h : lastIndex? a items = some i) : a ∈ items := by
  induction items generalizing i with
  | nil => simp [lastIndex?] at h
  | cons b rest ih =>
    rw [lastIndex?] at h
    split at h
    · rename_i hrest
      exact List.mem_cons_of_mem _ (ih hrest)
    · split at h
      · rename_i hb
        simp [hb]
      · cases h

namespace Plan

variable {plan : Plan} {n : Node} {name : String} {param : Param} {c : Connection}

/-! ## What the stages owe each other -/

/-- The plan that the parts of a program are written from, once its variables are known. -/
def compiling (catalog : Catalog) (settings : Settings) (g : Graph) (order : List String) : Plan :=
  (ofGraph catalog settings g order).declaring (ofGraph catalog settings g order).declarations.value

/-- Every symbol that an expression may need is there. -/
structure Complete (plan : Plan) : Prop where
  /-- Virtual sources have uniforms. -/
  virtuals : ∀ c ∈ plan.graph.connections, plan.isVirtual c.sourceId = true →
    ∃ symbol, plan.uniforms.virtual? c.sourceId = some symbol
  /-- What is executed is a node of the graph. -/
  order : ∀ id ∈ plan.order, (plan.graph.node? id).isSome = true
  /-- The variables of the nodes are declared. -/
  nodes : ∀ n ∈ plan.nodes, ∀ d ∈ Declaration.ofNode n, d.symbol ∈ plan.declared
  /-- What connections read from nodes is declared. -/
  reads : ∀ c ∈ plan.graph.connections, plan.readsNode c = true → sourceSymbol c ∈ plan.declared

/-- **The plan of a compilation is complete**, whatever the graph, as soon as it has an order of
execution. -/
theorem complete_compiling {catalog : Catalog} {settings : Settings} {g : Graph}
    {order : List String} (h : g.executionOrder settings = .ok order) :
    (compiling catalog settings g order).Complete where
  virtuals := fun _ hc hvirtual => UniformTable.exists_virtual? hc hvirtual
  order := fun _ hid => Graph.isSome_node?_iff.2 ((Graph.mem_executionOrder h).1 hid)
  nodes := fun _ hn _ hd => mem_symbols_of_mem_own (mem_own_of_ofNode hn hd)
  reads := fun _ hc hreads => mem_symbols_of_readsNode hc hreads

/-! ## Expressions that use defined symbols only -/

/-- The value of a parameter without its automation and connections: a uniform or a literal. -/
inductive Configured (plan : Plan) : String → Prop where
  | uniform {symbol : String} (h : symbol ∈ plan.uniforms.names) : Configured plan symbol
  | literal (value : Float) : Configured plan (Glsl.floatLiteral value)

/-- A connected value: a uniform, or a variable read as a float. -/
inductive Supplied (plan : Plan) : String → Prop where
  | uniform {symbol : String} (h : symbol ∈ plan.uniforms.names) : Supplied plan symbol
  | output {nodeId port : String} (type : ValueType)
      (h : Symbol.output nodeId port ∈ plan.declared) :
      Supplied plan (Glsl.toFloat (Symbol.output nodeId port) type)

/-- Every symbol that the expression of a parameter brings in is defined by the program: the
evaluator is written, the uniform is on offer, the variable is declared. What may be brought in is a
matter of the kind of the parameter, and only a text is free to say anything. -/
inductive Grounded (plan : Plan) : Param.Kind → Resolved → Prop where
  | automation {evaluator : String} (h : evaluator ∈ plan.evaluators.value.map (·.name)) :
      Grounded plan .float ⟨evaluator ++ "(" ++ Symbol.time ++ ")", .automation⟩
  | connection {configured connected : String} (rule : Param.Combine)
      (hconfigured : plan.Configured configured) (hconnected : plan.Supplied connected) :
      Grounded plan .float ⟨rule.join configured connected, .connection⟩
  | uniform {symbol : String} (h : symbol ∈ plan.uniforms.names) :
      Grounded plan .float ⟨symbol, .uniform⟩
  | float (value : Float) : Grounded plan .float ⟨Glsl.floatLiteral value, .literal⟩
  | int (value : Float) : Grounded plan .int ⟨Glsl.intLiteral value, .literal⟩
  | array {symbol : String} (h : symbol ∈ plan.declared) : Grounded plan .array ⟨symbol, .array⟩
  | text (content : String) : Grounded plan .string ⟨content, .text⟩

theorem configured_settled (plan : Plan) (n : Node) (name : String) (param : Param) :
    plan.Configured (plan.settled n name param).expr := by
  rw [settled]
  split
  · rename_i symbol h
    exact .uniform (UniformTable.mem_names_of_param? h)
  · exact .literal _

theorem grounded_settled (plan : Plan) (n : Node) (name : String) (param : Param) :
    plan.Grounded .float (plan.settled n name param) := by
  rw [settled]
  split
  · rename_i symbol h
    exact .uniform (UniformTable.mem_names_of_param? h)
  · exact .float _

/-- Of lanes whose evaluators share a name the first has one, so the name is always there. -/
theorem mem_evaluators_of_mem_lanes {lane : Lane Float} (h : lane ∈ plan.graph.lanes) :
    Symbol.evaluator lane.id ∈ plan.evaluators.value.map (·.name) := by
  obtain ⟨first, hfirst, heq⟩ : ∃ first ∈ distinctOn evaluatorName plan.graph.lanes,
      evaluatorName first = evaluatorName lane :=
    exists_mem_distinctOn h
  exact List.mem_map.2 ⟨plan.evaluator first, List.mem_map.2 ⟨first, hfirst, rfl⟩, heq⟩

/-- The text of an evaluator defines the function that is called, and nothing else. -/
theorem functionsOf_of_mem_evaluators {evaluator : Evaluator Float}
    (h : evaluator ∈ plan.evaluators.value) : Glsl.functionsOf evaluator.text
      = [⟨"float", evaluator.name, ["float"], evaluator.text⟩] := by
  obtain ⟨lane, -, rfl⟩ := List.mem_map.1 h
  exact Evaluator.functionsOf_text lane _ _

/-- The connection that decides a parameter is one of the graph, from a virtual source or from a
source that is executed. -/
theorem mem_of_winner? (h : plan.winner? n name = some c) : c ∈ plan.graph.connections
    ∧ (plan.isVirtual c.sourceId = true ∨ c.sourceId ∈ plan.order) := by
  obtain ⟨consumer, -, hhighest⟩ := Option.bind_eq_some_iff.1 h
  obtain ⟨hmem, r, hr⟩ := mem_of_highest? hhighest
  refine ⟨(List.mem_filter.1 hmem).1, ?_⟩
  rw [rank?] at hr
  split at hr
  · rename_i hvirtual
    exact Or.inl hvirtual
  · split at hr
    · rename_i i hi
      exact Or.inr (mem_of_lastIndex? hi)
    · cases hr

namespace Complete

variable (hplan : plan.Complete)

include hplan

/-- A source that is executed, or virtual, can be read without a warning. -/
theorem connectedParam_supplied (hc : c ∈ plan.graph.connections)
    (hsource : plan.isVirtual c.sourceId = true ∨ c.sourceId ∈ plan.order) :
    ∃ expr, plan.connectedParam n c = pure expr ∧ plan.Supplied expr := by
  rw [connectedParam]
  split
  · rename_i hvirtual
    obtain ⟨symbol, hsymbol⟩ := hplan.virtuals c hc hvirtual
    rw [hsymbol]
    exact ⟨symbol, rfl, .uniform (UniformTable.mem_names_of_virtual? hsymbol)⟩
  · rename_i hvirtual
    have hreads : plan.readsNode c = true := by
      simp [readsNode, hvirtual, hplan.order _ (hsource.resolve_left hvirtual)]
    have hdeclared : Symbol.output c.sourceId c.sourcePort ∈ plan.declared :=
      hplan.reads c hc hreads
    have hdeclares : plan.declares (Symbol.output c.sourceId c.sourcePort) = true := by
      simpa [declares] using hdeclared
    exact ⟨_, by simp only [hdeclares, if_true]; rfl, .output _ hdeclared⟩

/-- A float parameter is grounded. -/
theorem resolveFloat_grounded (n : Node) (name : String) (param : Param) :
    ∃ r, plan.resolveFloat n name param = pure r ∧ plan.Grounded .float r := by
  rw [resolveFloat]
  split
  · rename_i call hcall
    obtain ⟨lane, hlane, rfl⟩ := Option.map_eq_some_iff.1 hcall
    exact ⟨_, rfl, .automation (mem_evaluators_of_mem_lanes (List.mem_of_find?_eq_some hlane))⟩
  · split
    · rename_i c hwinner
      obtain ⟨hc, hsource⟩ := mem_of_winner? hwinner
      obtain ⟨expr, heq, hexpr⟩ := hplan.connectedParam_supplied hc hsource
      rw [heq]
      exact ⟨_, rfl, .connection _ (plan.configured_settled n name param) hexpr⟩
    · exact ⟨_, rfl, plan.grounded_settled n name param⟩

/-- **Every parameter of a node is grounded**, and resolving it gives no warning. -/
theorem resolve_grounded {n : TypedNode} (hn : n ∈ plan.nodes) {e : String × Param}
    (he : e ∈ n.type.params.entries) :
    ∃ r, plan.resolve n.node e.1 e.2 = pure r ∧ plan.Grounded e.2.kind r := by
  rw [resolve]
  cases hkind : e.2.kind with
  | float => exact hplan.resolveFloat_grounded n.node e.1 e.2
  | int => exact ⟨_, rfl, .int _⟩
  | string => exact ⟨_, rfl, .text _⟩
  | array =>
    -- the variable of an array is one of those that its node declares
    have hd : Declaration.array (Symbol.array n.node.id e.1)
        (Declaration.elements (n.node.setting e.1 e.2)) ∈ Declaration.ofNode n :=
      List.mem_append_right _ (List.mem_map.2 ⟨e, List.mem_filter.2 ⟨he, by simp [hkind]⟩, rfl⟩)
    exact ⟨_, rfl, .array (hplan.nodes n hn _ hd)⟩

/-- The parameters that a node resolves are those of its type, each grounded after its kind. -/
theorem resolveAll_grounded {n : TypedNode} (hn : n ∈ plan.nodes) :
    (plan.resolveAll n).warnings = [] ∧ n.type.params.entries.Forall₂
      (fun declared resolved =>
        resolved.1 = declared.1 ∧ plan.Grounded declared.2.kind resolved.2)
      (plan.resolveAll n).value.entries := by
  constructor
  · refine List.flatMap_eq_nil_iff.2 fun resolved hresolved => ?_
    simp only [Dict.values, Dict.entries_map, List.map_map, List.mem_map] at hresolved
    obtain ⟨e, he, rfl⟩ := hresolved
    obtain ⟨r, hr, -⟩ := hplan.resolve_grounded hn he
    simp [hr]
  · simp only [resolveAll, Dict.entries_map, List.map_map, List.forall₂_map_right_iff]
    refine List.forall₂_same.2 fun e he => ⟨rfl, ?_⟩
    obtain ⟨r, hr, hgrounded⟩ := hplan.resolve_grounded hn he
    simpa [hr] using hgrounded

end Complete

end Plan

/-! ## The program of a plan -/

section Program

variable {catalog : Catalog} {settings : Settings} {g : Graph} {order : List String}

/-- The globals of a program are the declarations of its plan. -/
theorem globals_compileOrdered : (compileOrdered catalog settings g order).program.globals
    = (Plan.compiling catalog settings g order).declarations.value.map Declaration.line := rfl

/-- A program holds the evaluators of its plan. -/
theorem text_mem_functions_compileOrdered {evaluator : Evaluator Float}
    (h : evaluator ∈ (Plan.compiling catalog settings g order).evaluators.value) :
    evaluator.text ∈ (compileOrdered catalog settings g order).program.functions := by
  refine List.mem_append_left _ (List.mem_append_left _ (List.mem_append_right _ ?_))
  exact List.mem_map.2 ⟨evaluator, h, rfl⟩

end Program

/-- **Whatever a parameter refers to is defined.** For every graph with an order of execution, valid
or not, the parameters of its nodes resolve without a warning to expressions whose evaluators are
written, whose uniforms are on offer and whose variables are declared. The program holds these
evaluators, and the text of each defines one function, with its name, from a float to a float. Every
output that a connection reads from a node is declared, no variable is declared twice, and the
globals of the program are the declarations of these variables, one line each. -/
theorem references_closed (catalog : Catalog) (settings : Settings) (g : Graph)
    (order : List String) (h : g.executionOrder settings = .ok order) :
    let plan := Plan.compiling catalog settings g order
    let program := (compileOrdered catalog settings g order).program
    (∀ n ∈ plan.nodes, (plan.resolveAll n).warnings = [] ∧ n.type.params.entries.Forall₂
      (fun declared resolved =>
        resolved.1 = declared.1 ∧ plan.Grounded declared.2.kind resolved.2)
      (plan.resolveAll n).value.entries) ∧
    (∀ evaluator ∈ plan.evaluators.value, evaluator.text ∈ program.functions ∧
      Glsl.functionsOf evaluator.text = [⟨"float", evaluator.name, ["float"], evaluator.text⟩]) ∧
    (∀ c ∈ g.connections, settings.isVirtual c.sourceId = false →
      (∃ n ∈ g.nodes, n.id = c.sourceId) →
      Symbol.output c.sourceId c.sourcePort ∈ plan.declared) ∧
    program.globals = plan.declarations.value.map Declaration.line ∧
    plan.declared.Nodup ∧ program.globals.Nodup ∧
    program.globals.map Declaration.nameIn = plan.declared := by
  intro plan program
  have hplan : plan.Complete := Plan.complete_compiling h
  refine ⟨fun n hn => hplan.resolveAll_grounded hn,
    fun evaluator hevaluator => ⟨text_mem_functions_compileOrdered hevaluator,
      Plan.functionsOf_of_mem_evaluators hevaluator⟩,
    fun c hc hvirtual hsource => ?_, globals_compileOrdered,
    plan.nodup_symbols, plan.nodup_lines, plan.map_nameIn_lines⟩
  refine hplan.reads c hc ?_
  have hnode : (g.node? c.sourceId).isSome = true :=
    Graph.isSome_node?_iff.2 (Graph.mem_nodeIds.2 hsource)
  show (!settings.isVirtual c.sourceId && (g.node? c.sourceId).isSome) = true
  simp [hvirtual, hnode]

/-- A node type whose parameters can be driven in every way. -/
def NodeType.oscillator : NodeType :=
  ((((bare "oscillator" "source").withOutput (.plain "out" .vec3)).withParam "rate"
    ((Param.float 1).withRange 0 2)).withParam "depth" (.float 0)).withParam "table" (.array [])

/-- A lane with a rise that goes beyond the bounds of its parameter, again and again. -/
def Lane.saw : Lane Float := ⟨"lane 1", "b", "rate", [⟨0, 1, true, ⟨.linear, [⟨0, 0⟩, ⟨1, 3⟩]⟩⟩]⟩

/-- A graph with a repeated id, a node of unknown type, connections from an output that no type has
and from outside, and two lanes whose evaluators share a name. -/
def Graph.patched : Graph where
  id := "patched"
  name := "patched"
  version := formatVersion
  nodes := [.bare "b" "oscillator", .bare "a" "oscillator", .bare "x" "unheard",
    .bare "a" "unheard"]
  connections := [.between "1" ("x", "out") "b" (.parameter "depth"),
    .between "2" ("a", "gone") "b" (.parameter "depth"),
    .between "3" ("virtual:beat", "out") "a" (.parameter "depth"),
    .between "4" ("nowhere", "out") "a" (.parameter "rate")]
  lanes := [.saw, ⟨"lane-1", "a", "rate", []⟩]

/-- All the same no parameter is without its symbols. Both lanes call the one evaluator that is
written under their name, and its text defines it. -/
theorem references_patched : Graph.patched.executionOrder {} = .ok ["a", "x", "b"] ∧
    let plan := Plan.compiling (.ofList [.oscillator]) {} .patched ["a", "x", "b"]
    let program := (compileOrdered (.ofList [.oscillator]) {} .patched ["a", "x", "b"]).program
    plan.nodes.map (·.node.id) = ["a", "b"] ∧
    (∀ n ∈ plan.nodes, (plan.resolveAll n).warnings = []) ∧
    plan.nodes.map (fun n => ((plan.resolveAll n).value.find? "rate").map (·.expr))
      = [some "automation_lane_1(uTime)", some "automation_lane_1(uTime)"] ∧
    (∃ evaluator ∈ plan.evaluators.value, evaluator.text ∈ program.functions ∧
      Glsl.functionsOf evaluator.text
        = [⟨"float", "automation_lane_1", ["float"], evaluator.text⟩]) ∧
    Symbol.output "x" "out" ∈ plan.declared ∧ Symbol.output "a" "gone" ∈ plan.declared := by
  have h : Graph.patched.executionOrder {} = .ok ["a", "x", "b"] := by decide +kernel
  obtain ⟨hresolve, hwritten, hreads, -⟩ :=
    references_closed (.ofList [.oscillator]) {} .patched _ h
  have hlane : Lane.saw ∈ (Plan.compiling (.ofList [.oscillator]) {} .patched
      ["a", "x", "b"]).graph.lanes := List.mem_cons_self
  obtain ⟨evaluator, hevaluator, hname⟩ :=
    List.mem_map.1 (Plan.mem_evaluators_of_mem_lanes hlane)
  have hsymbol : Symbol.evaluator Lane.saw.id = "automation_lane_1" := by decide +kernel
  obtain ⟨htext, hfunction⟩ := hwritten evaluator hevaluator
  rw [hname, hsymbol] at hfunction
  exact ⟨h, by decide +kernel, fun n hn => (hresolve n hn).1, by decide +kernel,
    ⟨evaluator, hevaluator, htext, hfunction⟩,
    hreads (.between "1" ("x", "out") "b" (.parameter "depth")) (by decide) (by decide)
      ⟨.bare "x" "unheard", by simp [Graph.patched], rfl⟩,
    hreads (.between "2" ("a", "gone") "b" (.parameter "depth")) (by decide) (by decide)
      ⟨.bare "a" "unheard", by simp [Graph.patched], rfl⟩⟩

end ShaderGraph
