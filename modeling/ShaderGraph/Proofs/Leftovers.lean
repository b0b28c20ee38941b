import ShaderGraph.Emit.Body
import ShaderGraph.Proofs.Indentation
import ShaderGraph.Proofs.Inlining
import ShaderGraph.Proofs.Library
import ShaderGraph.Proofs.References
import ShaderGraph.Proofs.RenamedFunctions

/-!
# No name is left behind

Where the functions of a node are renamed, so is all code of the node that could call them: the
functions themselves, its body and every block that inlines it. Renaming comes last, when the code
is filled in, so what stands in for inputs and parameters does not matter. Hence an old name is left
nowhere, unless it is also one of the new names.
-/

namespace ShaderGraph

open Glsl (identifiers)

/-- A name that is replaced, and that replaces no other, is gone. -/
theorem Glsl.Renaming.not_mem_identifiers_rename {names : Renaming} (hnames : names.ToIdentifiers)
    {old : String} (hold : old ∈ names.map (·.1)) (hnew : old ∉ names.map (·.2)) (text : String) :
    old ∉ identifiers (names.rename text) := by
  rw [identifiers_rename hnames]
  intro hmem
  obtain ⟨name, -, rfl⟩ := List.mem_map.1 hmem
  by_cases hname : name ∈ names.map (·.1)
  · exact hnew (List.mem_map.2 ⟨_, apply_mem hname, rfl⟩)
  · rw [apply_of_not_mem hname] at hold
    exact hname hold

/-! ## Code in braces -/

/-- What stands between the braces. -/
def inScope (code : String) : String := "\n" ++ Text.indent 8 code ++ "\n    "

theorem braced_eq (code : String) : braced code = "    \x7b" ++ inScope code ++ "\x7d" := by
  rw [← String.toList_inj]
  simp [braced, inScope]

theorem identifiers_inScope (code : String) : identifiers (inScope code) = identifiers code := by
  have hfront : ['\n'].all Glsl.isBreak = true := by decide
  have hback : "\n    ".toList.all Text.isBlank = true := by decide
  have htext : (inScope code).toList
      = ['\n'] ++ ((Text.indent 8 code).toList ++ "\n    ".toList) := by
    simp [inScope]
  rw [← Glsl.identifiers_indent 8 code, Glsl.identifiers_eq, Glsl.identifiers_eq, htext,
    (Glsl.append_of_isBreak (List.all_eq_true.1 hfront) _).1]
  exact congrArg (List.map String.ofList)
    (Glsl.namesFrom_append_blanks (List.all_eq_true.1 hback) (.inside .code) _)

/-! ## Turns and names -/

namespace Plan

variable {plan : Plan} {lib : Library} {nodes : List TypedNode} {id : String}

/-- Only a node with code gets names. -/
theorem exists_code_of_renamingOf
    (h : (plan.addNodes nodes lib).value.renamingOf id ≠ lib.renamingOf id) :
    ∃ before n after code, nodes = before ++ n :: after ∧ n.node.id = id ∧ n.code? = some code := by
  induction nodes generalizing lib with
  | nil => exact absurd rfl h
  | cons n rest ih =>
    by_cases hsame : (plan.addNode lib n).value.renamingOf id = lib.renamingOf id
    · rw [addNodes, Warned.value_bind, ← hsame] at h
      obtain ⟨before, m, after, code, rfl, hid, hcode⟩ := ih h
      exact ⟨n :: before, m, after, code, rfl, hid, hcode⟩
    · cases hcode : n.code? with
      | none =>
        rw [addNode_of_code?_eq_none hcode] at hsame
        exact absurd rfl hsame
      | some code =>
        refine ⟨[], n, rest, code, rfl, ?_, hcode⟩
        by_contra hid
        rw [renamingOf_addNode hcode, if_neg fun h => hid h.1.symm] at hsame
        exact hsame rfl

/-- A node that has new names in the library had its turn. -/
theorem exists_turn_of_renamingOf (h : plan.library.value.renamingOf id ≠ []) :
    ∃ t : plan.Turn, t.id = id := by
  obtain ⟨before, n, after, code, hnodes, hid, hcode⟩ := exists_code_of_renamingOf h
  exact ⟨⟨before, n, after, hnodes, code, hcode⟩, hid⟩

theorem Turn.toIdentifiers_names (t : plan.Turn) : t.names.ToIdentifiers := by
  rw [Turn.names, ownNames]
  split
  · exact (Glsl.unreserved_instanceRenaming _ _).toIdentifiers
  · intro entry hmem
    cases hmem

end Plan

/-! ## Blocks -/

/-- The code of every block has the new names of its node. -/
def Inlining.IsRenamed (s : Inlining) (lib : Library) : Prop :=
  ∀ b ∈ s.blocks, ∃ code, b.code = (lib.renamingOf b.nodeId).rename code

namespace Plan

variable {plan : Plan} {lib : Library} {follow : Follow} {s : Inlining}

section Follow

variable (hfollow : ∀ c target s, Inlining.IsRenamed s lib → (follow c target s).2.IsRenamed lib)

include hfollow

theorem isRenamed_inlinedInputs (n : Node) (params : Dict Resolved) (ports : List Port)
    (h : s.IsRenamed lib) : (plan.inlinedInputs follow n params ports s).2.IsRenamed lib := by
  induction ports generalizing s with
  | nil => exact h
  | cons port rest ih =>
    have hfirst : (plan.inlinedInput follow n params port s).2.IsRenamed lib := by
      unfold inlinedInput
      split
      · exact hfollow _ _ _ h
      · exact h
    exact ih hfirst

theorem isRenamed_inlineNode (n : TypedNode) (h : s.IsRenamed lib) :
    (plan.inlineNode lib follow n s).IsRenamed lib := by
  by_cases hnew : n.node.id ∈ s.begun
  · rw [inlineNode, if_pos (List.contains_iff_mem.2 hnew)]
    exact h
  · rw [inlineNode_of_not_mem hnew]
    have hopened : (plan.opened n s).IsRenamed lib := h
    intro b hb
    rcases List.mem_append.1 hb with hb | hb
    · exact isRenamed_inlinedInputs hfollow _ _ _ hopened b hb
    · obtain rfl := List.mem_singleton.1 hb
      exact ⟨_, rfl⟩

end Follow

/-- Whatever a connection leads to, its blocks are renamed. -/
theorem isRenamed_inlineValue (levels : Nat) (c : Connection) (target : ValueType)
    (h : s.IsRenamed lib) : (plan.inlineValue lib levels c target s).2.IsRenamed lib := by
  induction levels generalizing c target s with
  | zero =>
    rw [inlineValue]
    split <;> exact h
  | succ levels ih =>
    rw [inlineValue]
    split
    · exact h
    · unfold inlinedOutput
      split
      · exact h
      · split
        · exact h
        · exact isRenamed_inlineNode (fun c target s h => ih c target h) _ h

end Plan

/-- So is the code in a body. -/
theorem Plan.exists_code_of_body {plan : Plan} {lib : Library} {marching : Marching} {n : TypedNode}
    {text : String} (h : (plan.body lib marching n).value = some text) :
    ∃ code, text = nodeLine n.node ++ "\n"
      ++ braced ((lib.renamingOf n.node.id).rename code) := by
  simp only [body] at h
  split at h
  · cases h
  · obtain rfl := Option.some.inj h
    exact ⟨_, rfl⟩

/-- **No name is left behind.** For every plan that executes no id twice and every node with new
names in the library: an old name that is not a new one as well is no identifier of any function
that the node brings in its turn. Nor is it one in the braces of the node's body or of a block that
inlines the node, and it could not be, whatever bindings the code is filled in with. -/
theorem no_old_name (plan : Plan) (horder : plan.order.Nodup) (id old : String)
    (hold : old ∈ (plan.library.value.renamingOf id).map (·.1))
    (hnew : old ∉ (plan.library.value.renamingOf id).map (·.2)) :
    let lib := plan.library.value
    (∃ t : plan.Turn, t.id = id) ∧
    (∀ t : plan.Turn, t.id = id → t.names = lib.renamingOf id ∧
      ∀ f ∈ t.functions, old ∉ identifiers f.text) ∧
    (∀ (bindings : Bindings) (template : Template),
      old ∉ identifiers ((lib.renamingOf id).rename (bindings.fill template).value)) ∧
    (∀ marching n text, n.node.id = id → (plan.body lib marching n).value = some text →
      ∃ inside, text = Plan.nodeLine n.node ++ "\n" ++ ("    \x7b" ++ inside ++ "\x7d") ∧
        old ∉ identifiers inside) ∧
    (∀ levels c target, ∀ b ∈ (plan.inlineValue lib levels c target {}).2.blocks, b.nodeId = id →
      ∃ inside, braced b.code = "    \x7b" ++ inside ++ "\x7d" ∧ old ∉ identifiers inside) := by
  intro lib
  have hne : lib.renamingOf id ≠ [] := by
    intro hnil
    rw [hnil] at hold
    cases hold
  obtain ⟨t, ht⟩ := Plan.exists_turn_of_renamingOf hne
  -- all that is written for the node was renamed last, with the names of its turn
  have hgone (code : String) : old ∉ identifiers ((lib.renamingOf id).rename code) := by
    refine Glsl.Renaming.not_mem_identifiers_rename ?_ hold hnew code
    rw [← ht, t.renamingOf_library horder]
    exact t.toIdentifiers_names
  have hscope (code : String) : old ∉ identifiers (inScope ((lib.renamingOf id).rename code)) := by
    rw [identifiers_inScope]
    exact hgone code
  refine ⟨⟨t, ht⟩, ?_, fun bindings template => hgone _, ?_, ?_⟩
  · rintro t rfl
    refine ⟨(t.renamingOf_library horder).symm, fun f hf hmem => ?_⟩
    rw [t.functions_eq, ← t.renamingOf_library horder] at hf
    exact hgone _ (Glsl.identifiers_subset hf hmem)
  · rintro marching n text rfl htext
    obtain ⟨code, rfl⟩ := Plan.exists_code_of_body htext
    exact ⟨_, by rw [braced_eq], hscope code⟩
  · rintro levels c target b hb rfl
    have hrenamed : ({} : Inlining).IsRenamed lib := by
      intro b hb
      cases hb
    obtain ⟨code, hcode⟩ := Plan.isRenamed_inlineValue levels c target hrenamed b hb
    exact ⟨_, by rw [hcode, braced_eq], hscope code⟩

/-- A node type whose code calls a function that reads an input. -/
def NodeType.dial : NodeType :=
  { ((bare "dial" "tool").withInput (.plain "x" .float)).withOutput (.plain "y" .float) with
    functionCode := some "float v()\x7breturn $input.x;\x7d"
    mainCode := "$output.y = v();" }

/-- A graph of one such node. -/
def Graph.dial : Graph where
  id := "dial"
  name := "dial"
  version := formatVersion
  nodes := [.bare "p" "dial"]
  connections := []
  lanes := []

namespace Plan

/-- The plan of the graph. -/
def dial : Plan := compiling (.ofList [.dial]) {} .dial ["p"]

/-- The turn of the node. -/
def dialTurn : dial.Turn where
  before := []
  node := ⟨.bare "p" "dial", .dial⟩
  after := []
  nodes := rfl
  code := _
  given := rfl

theorem nodup_order_dial : dial.order.Nodup := by decide

theorem renamingOf_dial : dial.library.value.renamingOf "p" = [("v", "v_p")] :=
  calc dial.library.value.renamingOf "p"
    _ = dialTurn.names := dialTurn.renamingOf_library nodup_order_dial
    _ = instanceRenaming "p" (Glsl.functionsOf dialTurn.specialised.code) :=
      ownNames_of_isPersonal (by decide +kernel) _
    _ = [("v", "v_p")] := by decide +kernel

end Plan

/-- The function of the node is renamed, and so are the calls, in the body and where the node is
inlined. -/
theorem no_old_name_dial :
    let lib := Plan.dial.library.value
    let root := Connection.between "1" ("p", "y") "eye" (.port "sdf")
    let blocks := (Plan.dial.inlineValue lib 1 root .float {}).2.blocks
    Plan.dial.order.Nodup ∧ lib.renamingOf "p" = [("v", "v_p")] ∧
    Plan.dialTurn.functions.map (·.name) = ["v_p"] ∧
    (∀ f ∈ Plan.dialTurn.functions, "v" ∉ identifiers f.text) ∧
    (∃ inside, (Plan.dial.body lib {} Plan.dialTurn.node).value
        = some ("    // node: p (dial)\n" ++ ("    \x7b" ++ inside ++ "\x7d")) ∧
      "v" ∉ identifiers inside) ∧
    blocks.map (·.nodeId) = ["p"] ∧
    ∀ b ∈ blocks, b.nodeId = "p" → ∃ inside, braced b.code = "    \x7b" ++ inside ++ "\x7d" ∧
      "v" ∉ identifiers inside := by
  intro lib root blocks
  have hold : "v" ∈ (lib.renamingOf "p").map (·.1) := by
    rw [Plan.renamingOf_dial]
    decide
  have hnew : "v" ∉ (lib.renamingOf "p").map (·.2) := by
    rw [Plan.renamingOf_dial]
    decide
  obtain ⟨-, hturns, -, hbodies, hblocks⟩ :=
    no_old_name Plan.dial Plan.nodup_order_dial "p" "v" hold hnew
  obtain ⟨hnames, hfunctions⟩ := hturns Plan.dialTurn rfl
  have hwritten : (Plan.dial.body lib {} Plan.dialTurn.node).value.isSome = true := by
    decide +kernel
  obtain ⟨text, htext⟩ := Option.isSome_iff_exists.1 hwritten
  obtain ⟨inside, rfl, hinside⟩ := hbodies {} Plan.dialTurn.node text rfl htext
  have hline : Plan.nodeLine Plan.dialTurn.node.node ++ "\n" = "    // node: p (dial)\n" := by
    decide
  rw [hline] at htext
  refine ⟨Plan.nodup_order_dial, Plan.renamingOf_dial, ?_, hfunctions, ⟨inside, htext, hinside⟩,
    by decide +kernel, hblocks 1 root .float⟩
  rw [Plan.Turn.functions_eq, hnames, Plan.renamingOf_dial]
  decide +kernel

end ShaderGraph
