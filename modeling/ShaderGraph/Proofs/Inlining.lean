import ShaderGraph.Emit.March
import ShaderGraph.Proofs.ConnectedInputs
import ShaderGraph.Proofs.Filling
import Mathlib.Data.List.Perm.Subperm

/-!
# What a distance function inlines

`inlineValue` goes up the connections of a graph and writes each node after what it reads. Here its
run is cut into three kinds of steps: a node is begun, a node is finished, or something is warned
about. The nodes that are begun and not finished form a path: each is read by the next one out.

On a path no node stands twice, so the depth is bounded by the number of nodes, cycles or not. A
finished node has a block, its code with what stands for its inputs filled in (`WritesBlock`). What
is read there is begun by then, and begun nodes are finished in the end. A node that is read and not
yet finished stands on the path, and then the connections run in a circle; where they do not, every
node comes after all that it reads.

A run answers many requests, one for the function and one for each connected input of a node that it
begins. Each lies within the run (`Request.within_first`), so its answer stands in what is written
in the end.
-/

namespace ShaderGraph

open Relation

/-! ## Warnings about the depth -/

/-- Something was cut off for its depth. -/
def Cut (warnings : List Warning) : Prop := ∃ limit nodeId, Warning.tooDeep limit nodeId ∈ warnings

theorem cut_append {x y : List Warning} : Cut (x ++ y) ↔ Cut x ∨ Cut y := by
  simp only [Cut, List.mem_append, exists_or]

theorem not_cut_nil : ¬ Cut [] := by simp [Cut]

/-- Filling code in says nothing about the depth. -/
theorem Warned.Filling.not_cut {α : Type} {x : Warned α} (h : x.Filling) : ¬ Cut x.warnings := by
  rintro ⟨limit, nodeId, hmem⟩
  cases h _ hmem

namespace Plan

variable {plan : Plan} {lib : Library} {c root : Connection} {n m : TypedNode} {id : String}

theorem filling_inlinedCode (plan : Plan) (lib : Library) (n : TypedNode) (params : Dict Resolved)
    (inputs : Dict String) : (plan.inlinedCode lib n params inputs).Filling :=
  (Bindings.filling_fill _ _).bind (Warned.filling_pure _)

theorem mem_nodeIds_of_isSome_typedNode? (h : (plan.typedNode? id).isSome = true) :
    id ∈ plan.graph.nodeIds := by
  obtain ⟨n, hn⟩ := Option.isSome_iff_exists.1 h
  exact Graph.isSome_node?_iff.1 (Option.isSome_iff_exists.2 ⟨_, (typedNode?_eq_some_iff.1 hn).1⟩)

/-! ## What is followed -/

/-- The node that a connection is followed to: one of known type that is not virtual and has the
output. -/
def followed? (plan : Plan) (c : Connection) : Option TypedNode :=
  if plan.isVirtual c.sourceId then none
  else (plan.typedNode? c.sourceId).filter fun n => (n.type.output? c.sourcePort).isSome

theorem followed?_eq_some_iff : plan.followed? c = some n ↔ plan.isVirtual c.sourceId = false ∧
    plan.typedNode? c.sourceId = some n ∧ (n.type.output? c.sourcePort).isSome = true := by
  cases hvirtual : plan.isVirtual c.sourceId with
  | true => simp [followed?, hvirtual]
  | false => simp [followed?, hvirtual, Option.filter_eq_some_iff]

theorem typedNode?_of_followed? (h : plan.followed? c = some n) :
    plan.typedNode? n.node.id = some n := by
  have hn := (followed?_eq_some_iff.1 h).2.1
  rw [id_of_typedNode? hn, hn]

/-- An input of the one node is connected to an output of the other. -/
def Reads (plan : Plan) (id source : String) : Prop :=
  ∃ n, plan.typedNode? id = some n ∧ ∃ port ∈ n.type.inputs, ∃ c,
    plan.graph.portConnection? id port.name = some c ∧
      ∃ m, plan.followed? c = some m ∧ m.node.id = source

/-- The node lies behind a connection. -/
def LiesBehind (plan : Plan) (c : Connection) (id : String) : Prop :=
  ∃ n, plan.followed? c = some n ∧ ReflTransGen plan.Reads n.node.id id

/-- Whether the node is asked for by the innermost node on a path, or at the start. -/
def Asked (plan : Plan) (root : Connection) : List String → String → Prop
  | [], id => ∃ n, plan.followed? root = some n ∧ n.node.id = id
  | top :: _, id => plan.Reads top id

/-! ## What is written -/

/-- The local variables of nodes, one for each output. -/
def localsFor (plan : Plan) (ids : List String) : List Local :=
  ids.flatMap fun id => match plan.typedNode? id with
    | some n => n.type.outputs.map fun port => ⟨port.type, Symbol.inlined id port.name⟩
    | none => []

/-- What stands for a connection where some nodes are inlined: the uniform of a virtual source, a
local variable of such a node, or zero. Zero stands for what cannot be followed and for what is cut
off. -/
inductive InlinedAs (plan : Plan) (ids : List String) (locals : List Local) (cut : Prop)
    (c : Connection) (target : ValueType) : String → Prop where
  | uniform (h : plan.isVirtual c.sourceId = true) :
      InlinedAs plan ids locals cut c target (plan.virtualValue c.sourceId target)
  | zero (hreal : plan.isVirtual c.sourceId = false) (h : plan.followed? c = none ∨ cut) :
      InlinedAs plan ids locals cut c target target.zero
  | output {n : TypedNode} {l : Local} (hn : plan.followed? c = some n) (hid : n.node.id ∈ ids)
      (hlocal : l ∈ locals) (hsymbol : l.symbol = Symbol.inlined c.sourceId c.sourcePort) :
      InlinedAs plan ids locals cut c target (Glsl.convert l.symbol l.type target)

theorem localsFor_append (ids ids' : List String) :
    plan.localsFor (ids ++ ids') = plan.localsFor ids ++ plan.localsFor ids' :=
  List.flatMap_append

theorem localsFor_singleton (h : plan.typedNode? id = some n) :
    plan.localsFor [id] = localsOf n := by
  simp only [localsFor, List.flatMap_singleton, h, localsOf, id_of_typedNode? h]

theorem localsFor_subset {ids ids' : List String} (h : ids ⊆ ids') :
    plan.localsFor ids ⊆ plan.localsFor ids' := by
  intro l hl
  obtain ⟨id, hid, hl⟩ := List.mem_flatMap.1 hl
  exact List.mem_flatMap.2 ⟨id, h hid, hl⟩

/-- Where more is inlined or cut off, what was written stands. -/
theorem InlinedAs.mono {ids ids' : List String} {locals locals' : List Local} {cut cut' : Prop}
    {target : ValueType} {value : String} (h : plan.InlinedAs ids locals cut c target value)
    (hids : ids ⊆ ids') (hlocals : locals ⊆ locals') (hcut : cut → cut') :
    plan.InlinedAs ids' locals' cut' c target value := by
  cases h with
  | uniform h => exact .uniform h
  | zero hreal h => exact .zero hreal (h.imp_right hcut)
  | output hn hid hlocal hsymbol => exact .output hn (hids hid) (hlocals hlocal) hsymbol

/-- What a connection is followed to is inlined, unless something is cut off. -/
theorem InlinedAs.mem_of_followed? {ids : List String} {locals : List Local} {cut : Prop}
    {target : ValueType} {value : String} (h : plan.InlinedAs ids locals cut c target value)
    (hm : plan.followed? c = some m) : m.node.id ∈ ids ∨ cut := by
  cases h with
  | uniform hvirtual =>
    rw [(followed?_eq_some_iff.1 hm).1] at hvirtual
    cases hvirtual
  | zero _ h => exact .inr (h.resolve_left (by simp [hm]))
  | output hn hid => exact .inl (Option.some.inj (hm.symm.trans hn) ▸ hid)

/-- What stands for an input of a node where some nodes are inlined: that of the connection into it,
or what an input has by itself. -/
def InputAs (plan : Plan) (ids : List String) (locals : List Local) (cut : Prop) (n : TypedNode)
    (port : Port) (value : String) : Prop :=
  match plan.graph.portConnection? n.node.id port.name with
  | some c => plan.InlinedAs ids locals cut c port.type value
  | none => value = (fallback n.node port (plan.resolveAll n).value
      (some ⟨plan.settings.marchPoint, plan.settings.marchPoint ++ ".xy"⟩)).value

/-- What the placeholders of an inlined node stand for: the outputs for local variables, and the
place for the sampled point. -/
def inlinedBindings (plan : Plan) (n : TypedNode) (inputs : List (String × String)) : Bindings where
  nodeId := n.node.id
  inputs := Dict.ofList inputs
  outputs := Dict.ofList
    (n.type.outputs.map fun port => (port.name, Symbol.inlined n.node.id port.name))
  params := expressions (plan.resolveAll n).value
  coordinates := some ⟨plan.settings.marchPoint, plan.settings.marchPoint ++ ".xy"⟩

/-- The block holds the code of its node, with what stands for the inputs filled in and with the
functions of the library by the names that they have for the node. -/
def WritesBlock (plan : Plan) (lib : Library) (ids : List String) (locals : List Local) (cut : Prop)
    (block : Block) : Prop :=
  ∃ n inputs, plan.typedNode? block.nodeId = some n ∧
    n.type.inputs.Forall₂ (fun port input => input.1 = port.name ∧
      plan.InputAs ids locals cut n port input.2) inputs ∧
    block.code = (lib.renamingOf block.nodeId).rename
      ((plan.inlinedBindings n inputs).fill (Template.parse n.type.mainCode)).value

section Written

variable {ids ids' : List String} {locals locals' : List Local} {cut cut' : Prop}

theorem InputAs.mono {port : Port} {value : String}
    (h : plan.InputAs ids locals cut n port value) (hids : ids ⊆ ids')
    (hlocals : locals ⊆ locals') (hcut : cut → cut') :
    plan.InputAs ids' locals' cut' n port value := by
  rw [InputAs] at h ⊢
  split at h
  · exact h.mono hids hlocals hcut
  · exact h

theorem WritesBlock.mono {block : Block} (h : plan.WritesBlock lib ids locals cut block)
    (hids : ids ⊆ ids') (hlocals : locals ⊆ locals') (hcut : cut → cut') :
    plan.WritesBlock lib ids' locals' cut' block := by
  obtain ⟨n, inputs, hn, hinputs, hcode⟩ := h
  refine ⟨n, inputs, hn, hinputs.imp fun port input hinput => ?_, hcode⟩
  exact ⟨hinput.1, hinput.2.mono hids hlocals hcut⟩

/-- What the node of a block reads is inlined, unless something is cut off. -/
theorem WritesBlock.mem_of_reads {block : Block} {source : String}
    (h : plan.WritesBlock lib ids locals cut block) (hreads : plan.Reads block.nodeId source) :
    source ∈ ids ∨ cut := by
  obtain ⟨n, inputs, hn, hinputs, -⟩ := h
  obtain ⟨n', hn', port, hport, c, hc, m, hm, rfl⟩ := hreads
  obtain rfl : n = n' := Option.some.inj (hn.symm.trans hn')
  obtain ⟨i, rfl⟩ := List.get_of_mem hport
  have hinput := (hinputs.get i.isLt (hinputs.length_eq ▸ i.isLt)).2
  rw [InputAs, id_of_typedNode? hn, hc] at hinput
  exact hinput.mem_of_followed? hm

end Written

end Plan

/-! ## Steps -/

/-- A moment of the inlining: the nodes under way, the innermost first, and what is written. -/
structure InlineState where
  path : List String
  written : Inlining

/-- What stands for a connection, as far as nodes are begun. -/
abbrev Inlining.Gives (s : Inlining) (plan : Plan) (c : Connection) (target : ValueType)
    (value : String) : Prop :=
  plan.InlinedAs s.begun (plan.localsFor s.begun) (Cut s.warnings) c target value

/-- What stands for an input of a node, as far as nodes are begun. -/
abbrev Inlining.GivesInput (s : Inlining) (plan : Plan) (n : TypedNode) (port : Port)
    (value : String) : Prop :=
  plan.InputAs s.begun (plan.localsFor s.begun) (Cut s.warnings) n port value

/-- What a block holds, as far as nodes are begun. -/
abbrev Inlining.Holds (s : Inlining) (plan : Plan) (lib : Library) (block : Block) : Prop :=
  plan.WritesBlock lib s.begun (plan.localsFor s.begun) (Cut s.warnings) block

namespace InlineState

variable {plan : Plan} {lib : Library} {root : Connection} {a b : InlineState}

/-- What can happen from one moment to the next. -/
inductive Step (plan : Plan) (lib : Library) (root : Connection) :
    InlineState → InlineState → Prop where
  /-- Something is reported, the depth only where it is reached. -/
  | warn {path : List String} {s : Inlining} {warnings : List Warning}
      (h : Cut warnings → plan.settings.inlineDepth ≤ path.length) :
      Step plan lib root ⟨path, s⟩ ⟨path, { s with warnings := s.warnings ++ warnings }⟩
  /-- A node that is asked for is begun. -/
  | start {path : List String} {s : Inlining} {id : String}
      (hknown : (plan.typedNode? id).isSome = true) (hnew : id ∉ s.begun)
      (hasked : plan.Asked root path id) :
      Step plan lib root ⟨path, s⟩ ⟨id :: path, { s with begun := s.begun ++ [id] }⟩
  /-- The innermost node is finished: its code is written, with what was found for its inputs. -/
  | finish {path : List String} {s : Inlining} {block : Block} (h : s.Holds plan lib block) :
      Step plan lib root ⟨block.nodeId :: path, s⟩
        ⟨path, { s with
          locals := s.locals ++ plan.localsFor [block.nodeId], blocks := s.blocks ++ [block] }⟩

/-- Some steps lead from the one moment to the other. -/
abbrev Reaches (plan : Plan) (lib : Library) (root : Connection) :
    InlineState → InlineState → Prop :=
  ReflTransGen (Step plan lib root)

/-- No node is forgotten and no warning taken back. -/
theorem Reaches.mono (h : Reaches plan lib root a b) :
    a.written.begun ⊆ b.written.begun ∧ (Cut a.written.warnings → Cut b.written.warnings) := by
  induction h with
  | refl => exact ⟨List.Subset.refl _, id⟩
  | tail _ hstep ih =>
    cases hstep with
    | warn => exact ⟨ih.1, fun hcut => cut_append.2 (.inl (ih.2 hcut))⟩
    | start => exact ⟨List.Subset.trans ih.1 (List.subset_append_left _ _), ih.2⟩
    | finish => exact ih

/-- A value found on the way stands. -/
theorem Reaches.gives {c : Connection} {target : ValueType} {value : String}
    (h : Reaches plan lib root a b) (hvalue : a.written.Gives plan c target value) :
    b.written.Gives plan c target value :=
  hvalue.mono h.mono.1 (Plan.localsFor_subset h.mono.1) h.mono.2

theorem Reaches.givesInput {n : TypedNode} {port : Port} {value : String}
    (h : Reaches plan lib root a b) (hvalue : a.written.GivesInput plan n port value) :
    b.written.GivesInput plan n port value :=
  hvalue.mono h.mono.1 (Plan.localsFor_subset h.mono.1) h.mono.2

end InlineState

/-! ## The run -/

namespace Plan

open InlineState

variable {plan : Plan} {lib : Library} {root : Connection} {path : List String} {follow : Follow}
  {n : TypedNode} {s : Inlining}

/-- Following what is asked for makes steps, and what is found stands for the connection. -/
def Follows (plan : Plan) (lib : Library) (root : Connection) (path : List String)
    (follow : Follow) : Prop :=
  ∀ c, (∀ m, plan.followed? c = some m → plan.Asked root path m.node.id) → ∀ target s,
    Reaches plan lib root ⟨path, s⟩ ⟨path, (follow c target s).2⟩ ∧
      (follow c target s).2.Gives plan c target (follow c target s).1

theorem reaches_note {α : Type} (s : Inlining) {result : Warned α} (h : result.Filling) :
    Reaches plan lib root ⟨path, s⟩ ⟨path, (s.note result).2⟩ :=
  .single (.warn fun hcut => absurd hcut h.not_cut)

section Inputs

variable (hfollow : plan.Follows lib root (n.node.id :: path) follow)
  (hn : plan.typedNode? n.node.id = some n)

include hfollow hn

theorem reaches_inlinedInput {port : Port} (hport : port ∈ n.type.inputs) (s : Inlining) :
    let r := plan.inlinedInput follow n.node (plan.resolveAll n).value port s
    Reaches plan lib root ⟨n.node.id :: path, s⟩ ⟨n.node.id :: path, r.2⟩ ∧
      r.2.GivesInput plan n port r.1 := by
  simp only [inlinedInput, InputAs]
  cases hc : plan.graph.portConnection? n.node.id port.name with
  | none => exact ⟨reaches_note s (filling_fallback _ _ _ _), rfl⟩
  | some c => exact hfollow c (fun m hm => ⟨n, hn, port, hport, c, hc, m, hm, rfl⟩) port.type s

/-- What is found for the inputs stands for them. -/
theorem reaches_inlinedInputs {ports : List Port} (hports : ∀ port ∈ ports, port ∈ n.type.inputs)
    (s : Inlining) :
    let r := plan.inlinedInputs follow n.node (plan.resolveAll n).value ports s
    Reaches plan lib root ⟨n.node.id :: path, s⟩ ⟨n.node.id :: path, r.2⟩ ∧
      ports.Forall₂ (fun port input => input.1 = port.name ∧ r.2.GivesInput plan n port input.2)
        r.1 := by
  induction ports generalizing s with
  | nil => exact ⟨.refl, .nil⟩
  | cons port rest ih =>
    obtain ⟨hport, hrest⟩ := List.forall_mem_cons.1 hports
    obtain ⟨hfirst, hgives⟩ := reaches_inlinedInput hfollow hn hport s
    obtain ⟨hthen, hothers⟩ :=
      ih hrest (plan.inlinedInput follow n.node (plan.resolveAll n).value port s).2
    exact ⟨hfirst.trans hthen, .cons ⟨rfl, Reaches.givesInput hthen hgives⟩ hothers⟩

end Inputs

/-- A node is begun and its parameters are resolved. -/
def opened (plan : Plan) (n : TypedNode) (s : Inlining) : Inlining :=
  (({ s with begun := s.begun ++ [n.node.id] } : Inlining).note (plan.resolveAll n)).2

/-- The code of a node is written, given the values of its inputs. -/
def closed (plan : Plan) (lib : Library) (n : TypedNode) (inputs : List (String × String))
    (s : Inlining) : Inlining :=
  let code := plan.inlinedCode lib n (plan.resolveAll n).value (Dict.ofList inputs)
  { (s.note code).2 with
    locals := s.locals ++ localsOf n, blocks := s.blocks ++ [⟨n.node.id, code.value⟩] }

theorem inlineNode_of_not_mem (hnew : n.node.id ∉ s.begun) :
    plan.inlineNode lib follow n s =
      let r := plan.inlinedInputs follow n.node (plan.resolveAll n).value n.type.inputs
        (plan.opened n s)
      plan.closed lib n r.1 r.2 :=
  if_neg (List.contains_iff_mem.not.2 hnew)

theorem reaches_opened (lib : Library) (hn : plan.typedNode? n.node.id = some n)
    (hnew : n.node.id ∉ s.begun) (hasked : plan.Asked root path n.node.id) :
    Reaches plan lib root ⟨path, s⟩ ⟨n.node.id :: path, plan.opened n s⟩ :=
  .head (.start (Option.isSome_iff_exists.2 ⟨n, hn⟩) hnew hasked)
    (reaches_note _ (plan.filling_resolveAll n))

theorem reaches_closed (lib : Library) (hn : plan.typedNode? n.node.id = some n)
    {inputs : List (String × String)} (hinputs : n.type.inputs.Forall₂
      (fun port input => input.1 = port.name ∧ s.GivesInput plan n port input.2) inputs) :
    Reaches plan lib root ⟨n.node.id :: path, s⟩ ⟨path, plan.closed lib n inputs s⟩ := by
  set code := plan.inlinedCode lib n (plan.resolveAll n).value (Dict.ofList inputs)
  have hnote : Reaches plan lib root ⟨n.node.id :: path, s⟩
      ⟨n.node.id :: path, (s.note code).2⟩ :=
    reaches_note s (plan.filling_inlinedCode lib n _ _)
  have hfinish : Step plan lib root ⟨n.node.id :: path, (s.note code).2⟩
      ⟨path, plan.closed lib n inputs s⟩ := by
    have hblock : (s.note code).2.Holds plan lib ⟨n.node.id, code.value⟩ := by
      refine ⟨n, inputs, hn, hinputs.imp fun port input hinput => ?_, rfl⟩
      exact ⟨hinput.1, Reaches.givesInput hnote hinput.2⟩
    rw [closed, ← localsFor_singleton hn]
    exact .finish hblock
  exact hnote.tail hfinish

/-- **Writing a node makes steps**, and the node is begun then. -/
theorem reaches_inlineNode (lib : Library)
    (hfollow : plan.Follows lib root (n.node.id :: path) follow)
    (hn : plan.typedNode? n.node.id = some n) (hasked : plan.Asked root path n.node.id)
    (s : Inlining) :
    Reaches plan lib root ⟨path, s⟩ ⟨path, plan.inlineNode lib follow n s⟩ ∧
      n.node.id ∈ (plan.inlineNode lib follow n s).begun := by
  by_cases hnew : n.node.id ∈ s.begun
  · have hsame : plan.inlineNode lib follow n s = s := if_pos (List.contains_iff_mem.2 hnew)
    rw [hsame]
    exact ⟨.refl, hnew⟩
  · have hopened := reaches_opened lib hn hnew hasked
    obtain ⟨hinputs, hgiven⟩ :=
      reaches_inlinedInputs hfollow hn (fun _ hport => hport) (plan.opened n s)
    rw [inlineNode_of_not_mem hnew]
    refine ⟨hopened.trans (hinputs.trans (reaches_closed lib hn hgiven)), ?_⟩
    exact hinputs.mono.1 (List.mem_append_right _ (List.mem_singleton_self n.node.id))

theorem inlinedOutput_of_followed? (lib : Library) (follow : Follow) {c : Connection}
    (hn : plan.followed? c = some n) (target : ValueType) (s : Inlining) :
    ∃ port, n.type.output? c.sourcePort = some port ∧ plan.inlinedOutput lib follow c target s
      = (Glsl.convert (Symbol.inlined c.sourceId c.sourcePort) port.type target,
        plan.inlineNode lib follow n s) := by
  obtain ⟨-, hnode, houtput⟩ := followed?_eq_some_iff.1 hn
  obtain ⟨port, hport⟩ := Option.isSome_iff_exists.1 houtput
  exact ⟨port, hport, by simp only [inlinedOutput, hnode, hport]⟩

theorem inlinedOutput_of_not_followed (lib : Library) (follow : Follow) {c : Connection}
    (hreal : plan.isVirtual c.sourceId = false) (h : plan.followed? c = none) (target : ValueType)
    (s : Inlining) : plan.inlinedOutput lib follow c target s
      = s.giveUp target (.unknownOutput c.sourceId c.sourcePort) := by
  rw [inlinedOutput]
  split
  · rfl
  · rename_i n hn
    split
    · rfl
    · rename_i port hport
      have hsome : plan.followed? c = some n :=
        followed?_eq_some_iff.2 ⟨hreal, hn, Option.isSome_iff_exists.2 ⟨port, hport⟩⟩
      rw [h] at hsome
      cases hsome

theorem snd_inlineValue_of_followed? (lib : Library) {levels : Nat} {c : Connection}
    (hn : plan.followed? c = some n) (target : ValueType) (s : Inlining) :
    (plan.inlineValue lib (levels + 1) c target s).2
      = plan.inlineNode lib (plan.inlineValue lib levels) n s := by
  obtain ⟨port, -, houtput⟩ := plan.inlinedOutput_of_followed? lib (plan.inlineValue lib levels) hn
    target s
  rw [inlineValue, (followed?_eq_some_iff.1 hn).1, if_neg Bool.false_ne_true, houtput]

theorem reaches_inlinedOutput (lib : Library) {c : Connection}
    (hfollow : ∀ id, plan.Follows lib root (id :: path) follow)
    (hreal : plan.isVirtual c.sourceId = false)
    (hasked : ∀ m, plan.followed? c = some m → plan.Asked root path m.node.id) (target : ValueType)
    (s : Inlining) :
    let r := plan.inlinedOutput lib follow c target s
    Reaches plan lib root ⟨path, s⟩ ⟨path, r.2⟩ ∧ r.2.Gives plan c target r.1 := by
  intro r
  cases hfollowed : plan.followed? c with
  | none =>
    have hr : r = s.giveUp target (.unknownOutput c.sourceId c.sourcePort) :=
      plan.inlinedOutput_of_not_followed lib follow hreal hfollowed target s
    rw [hr]
    exact ⟨.single (.warn fun hcut => by simp [Cut] at hcut), .zero hreal (.inl hfollowed)⟩
  | some n =>
    obtain ⟨port, hport, hr⟩ := plan.inlinedOutput_of_followed? lib follow hfollowed target s
    have hn := typedNode?_of_followed? hfollowed
    have hid : n.node.id = c.sourceId := id_of_typedNode? (followed?_eq_some_iff.1 hfollowed).2.1
    obtain ⟨hreaches, hbegun⟩ :=
      reaches_inlineNode lib (hfollow n.node.id) hn (hasked n hfollowed) s
    -- the variable is that of the output by its name, which is the name asked for
    have hname : port.name = c.sourcePort := by simpa using List.find?_some hport
    have hlocal : (⟨port.type, Symbol.inlined c.sourceId c.sourcePort⟩ : Local) ∈ localsOf n := by
      rw [← hid, ← hname]
      exact List.mem_map.2 ⟨port, List.mem_of_find?_eq_some hport, rfl⟩
    rw [show r = _ from hr]
    refine ⟨hreaches, .output (l := ⟨port.type, Symbol.inlined c.sourceId c.sourcePort⟩) hfollowed
      hbegun ?_ rfl⟩
    refine localsFor_subset (List.cons_subset.2 ⟨hbegun, List.nil_subset _⟩) ?_
    rw [localsFor_singleton hn]
    exact hlocal

/-- **Inlining makes steps**, as deep as there are levels left. -/
theorem follows_inlineValue (lib : Library) {levels : Nat}
    (hlevels : levels + path.length = plan.settings.inlineDepth) :
    plan.Follows lib root path (plan.inlineValue lib levels) := by
  induction levels generalizing path with
  | zero =>
    intro c hasked target s
    rw [inlineValue]
    cases hvirtual : plan.isVirtual c.sourceId with
    | true =>
      rw [if_pos rfl]
      exact ⟨.refl, .uniform hvirtual⟩
    | false =>
      rw [if_neg Bool.false_ne_true]
      have hcut : Cut [Warning.tooDeep plan.settings.inlineDepth c.sourceId] := by simp [Cut]
      refine ⟨.single (.warn fun _ => by omega), .zero hvirtual (.inr ?_)⟩
      exact cut_append.2 (.inr hcut)
  | succ levels ih =>
    intro c hasked target s
    rw [inlineValue]
    cases hvirtual : plan.isVirtual c.sourceId with
    | true =>
      rw [if_pos rfl]
      exact ⟨.refl, .uniform hvirtual⟩
    | false =>
      rw [if_neg Bool.false_ne_true]
      have hdeeper : ∀ id, plan.Follows lib root (id :: path) (plan.inlineValue lib levels) :=
        fun id => ih (by rw [List.length_cons]; omega)
      exact reaches_inlinedOutput lib hdeeper hvirtual hasked target s

end Plan

/-! ## What holds all along -/

/-- Every id comes after all that it reads. -/
def Ordered (reads : String → String → Prop) (ids : List String) : Prop :=
  ∀ before id after, ids = before ++ id :: after → ∀ source, reads id source → source ∈ before

theorem Ordered.append_singleton {reads : String → String → Prop} {ids : List String} {id : String}
    (h : Ordered reads ids) (hid : ∀ source, reads id source → source ∈ ids) :
    Ordered reads (ids ++ [id]) := by
  intro before id' after heq source hreads
  rcases List.eq_nil_or_concat after with rfl | ⟨after', last, rfl⟩
  · -- the new id is looked at
    obtain ⟨rfl, hlast⟩ := List.append_inj' heq rfl
    obtain rfl := (List.cons.inj hlast).1
    exact hid source hreads
  · rw [List.concat_eq_append, ← List.cons_append, ← List.append_assoc] at heq
    obtain ⟨rfl, -⟩ := List.append_inj' heq rfl
    exact h before id' after' rfl source hreads

namespace InlineState

variable {plan : Plan} {root : Connection} {a b : InlineState}

/-- The ids of the nodes that are finished, in their order. -/
def finished (a : InlineState) : List String := a.written.blocks.map (·.nodeId)

/-- What holds at every moment. -/
structure Sound (plan : Plan) (lib : Library) (root : Connection) (a : InlineState) : Prop where
  nodup : a.written.begun.Nodup
  /-- What is begun is under way or finished. -/
  begun : a.written.begun.Perm (a.path ++ a.finished)
  known : ∀ id ∈ a.written.begun, id ∈ plan.graph.nodeIds
  behind : ∀ id ∈ a.written.begun, plan.LiesBehind root id
  /-- On the path the outer nodes read the inner ones. -/
  path : a.path.Pairwise fun inner outer => TransGen plan.Reads outer inner
  locals : a.written.locals = plan.localsFor a.finished
  blocks : ∀ block ∈ a.written.blocks, a.written.Holds plan lib block
  ordered : (∀ id, ¬ TransGen plan.Reads id id) → ¬ Cut a.written.warnings →
    Ordered plan.Reads a.finished
  depth : Cut a.written.warnings → plan.settings.inlineDepth ≤ plan.graph.nodeIds.length

namespace Sound

theorem start (plan : Plan) (lib : Library) (root : Connection) :
    Sound plan lib root ⟨[], {}⟩ where
  nodup := List.nodup_nil
  begun := .nil
  known := fun _ hid => absurd hid List.not_mem_nil
  behind := fun _ hid => absurd hid List.not_mem_nil
  path := .nil
  locals := rfl
  blocks := fun _ hblock => absurd hblock List.not_mem_nil
  ordered := fun _ _ before id after heq => by simp [finished] at heq
  depth := fun hcut => absurd hcut not_cut_nil

/-- What a finished node reads is begun, unless something is cut off. -/
theorem reads (h : Sound plan lib root a) {id source : String} (hid : id ∈ a.finished)
    (hreads : plan.Reads id source) : source ∈ a.written.begun ∨ Cut a.written.warnings := by
  obtain ⟨block, hblock, rfl⟩ := List.mem_map.1 hid
  exact (h.blocks block hblock).mem_of_reads hreads

/-- A path is no longer than the graph has nodes. -/
theorem length_path (h : Sound plan lib root a) : a.path.length ≤ plan.graph.nodeIds.length := by
  have hbegun := h.begun.length_eq
  have hnodes := (List.subperm_of_subset h.nodup h.known).length_le
  rw [List.length_append] at hbegun
  omega

section Asked

variable {path : List String} {s : Inlining} {id : String}
  (h : Sound plan lib root ⟨path, s⟩) (hasked : plan.Asked root path id)

include h hasked

theorem liesBehind_of_asked : plan.LiesBehind root id := by
  cases path with
  | nil =>
    obtain ⟨n, hn, rfl⟩ := hasked
    exact ⟨n, hn, .refl⟩
  | cons top rest =>
    have htop : top ∈ s.begun := h.begun.mem_iff.2 (List.mem_append_left _ List.mem_cons_self)
    obtain ⟨n, hn, hpath⟩ := h.behind top htop
    exact ⟨n, hn, hpath.tail hasked⟩

/-- Every node on the path leads to what is asked for. -/
theorem transGen_of_asked {outer : String} (houter : outer ∈ path) :
    TransGen plan.Reads outer id := by
  cases path with
  | nil => cases houter
  | cons top rest =>
    rcases List.mem_cons.1 houter with rfl | houter
    · exact .single hasked
    · exact (List.rel_of_pairwise_cons h.path houter).tail hasked

end Asked

/-- What the innermost node reads is finished as soon as it is begun, unless connections run in a
circle. -/
theorem mem_finished_of_reads {id source : String} {path : List String} {s : Inlining}
    (h : Sound plan lib root ⟨id :: path, s⟩) (hacyclic : ∀ id, ¬ TransGen plan.Reads id id)
    (hreads : plan.Reads id source) (hbegun : source ∈ s.begun) :
    source ∈ finished ⟨id :: path, s⟩ := by
  rcases List.mem_append.1 (h.begun.mem_iff.1 hbegun) with hpath | hfinished
  · -- the source is under way, so it leads to the node that reads it
    exfalso
    rcases List.mem_cons.1 hpath with rfl | hpath
    · exact hacyclic _ (.single hreads)
    · exact hacyclic _ ((TransGen.single hreads).trans (List.rel_of_pairwise_cons h.path hpath))
  · exact hfinished

/-- **Every step keeps a moment sound.** -/
theorem step (h : Sound plan lib root a) (hstep : Step plan lib root a b) :
    Sound plan lib root b := by
  have hmono := Reaches.mono (.single hstep)
  have hblocks : ∀ block ∈ a.written.blocks, b.written.Holds plan lib block :=
    fun block hblock =>
      (h.blocks block hblock).mono hmono.1 (Plan.localsFor_subset hmono.1) hmono.2
  cases hstep with
  | @warn path s warnings hdeep =>
    refine ⟨h.nodup, h.begun, h.known, h.behind, h.path, h.locals, hblocks,
      fun hacyclic hcut => h.ordered hacyclic fun hold => hcut (hmono.2 hold), fun hcut => ?_⟩
    rcases cut_append.1 hcut with hold | hnew
    · exact h.depth hold
    · exact Nat.le_trans (hdeep hnew) h.length_path
  | @start path s id hknown hnew hasked =>
    have hbegun : (s.begun ++ [id]).Perm (id :: s.begun) := List.perm_append_singleton id s.begun
    refine ⟨hbegun.nodup_iff.2 (List.nodup_cons.2 ⟨hnew, h.nodup⟩), hbegun.trans (h.begun.cons id),
      fun other hother => ?_, fun other hother => ?_, ?_, h.locals, hblocks, h.ordered, h.depth⟩
    · rcases List.mem_cons.1 (hbegun.mem_iff.1 hother) with rfl | hother
      · exact Plan.mem_nodeIds_of_isSome_typedNode? hknown
      · exact h.known other hother
    · rcases List.mem_cons.1 (hbegun.mem_iff.1 hother) with rfl | hother
      · exact h.liesBehind_of_asked hasked
      · exact h.behind other hother
    · exact List.pairwise_cons.2 ⟨fun outer houter => h.transGen_of_asked hasked houter, h.path⟩
  | @finish path s block hblock =>
    have hfinished : finished ⟨path, { s with
          locals := s.locals ++ plan.localsFor [block.nodeId], blocks := s.blocks ++ [block] }⟩
        = finished ⟨block.nodeId :: path, s⟩ ++ [block.nodeId] := List.map_append
    refine ⟨h.nodup, ?_, h.known, h.behind, h.path.of_cons, ?_, fun other hother => ?_,
      fun hacyclic hcut => ?_, h.depth⟩
    · rw [hfinished, ← List.append_assoc]
      exact h.begun.trans (List.perm_append_singleton _ _).symm
    · rw [hfinished, Plan.localsFor_append, ← h.locals]
    · rcases List.mem_append.1 hother with hother | hother
      · exact hblocks other hother
      · exact List.mem_singleton.1 hother ▸ hblock
    · rw [hfinished]
      refine (h.ordered hacyclic hcut).append_singleton fun source hreads => ?_
      exact h.mem_finished_of_reads hacyclic hreads
        ((hblock.mem_of_reads hreads).resolve_right hcut)

theorem reaches (h : Sound plan lib root a) (hrun : Reaches plan lib root a b) :
    Sound plan lib root b := by
  induction hrun with
  | refl => exact h
  | tail _ hstep ih => exact ih.step hstep

end Sound

end InlineState

/-! ## Requests -/

/-- A request for what a connection carries, with some levels left and some code written. -/
structure Request where
  levels : Nat
  connection : Connection
  target : ValueType
  state : Inlining

namespace Request

open InlineState

variable {plan : Plan} {lib : Library} {root : Connection} {path : List String} {r r' : Request}

/-- What the request comes to. -/
def answer (plan : Plan) (lib : Library) (r : Request) : String × Inlining :=
  plan.inlineValue lib r.levels r.connection r.target r.state

/-- The request that begins a distance function. -/
def first (plan : Plan) (root : Connection) : Request :=
  ⟨plan.settings.inlineDepth, root, .float, {}⟩

/-- A request for a node that is new makes a request for each connected input of the node, when the
inputs before it are dealt with. -/
inductive Makes (plan : Plan) (lib : Library) : Request → Request → Prop where
  | input {levels : Nat} {c c' : Connection} {target : ValueType} {s : Inlining} {n : TypedNode}
      {before after : List Port} {port : Port} (hn : plan.followed? c = some n)
      (hnew : n.node.id ∉ s.begun) (hinputs : n.type.inputs = before ++ port :: after)
      (hc : plan.graph.portConnection? n.node.id port.name = some c') :
      Makes plan lib ⟨levels + 1, c, target, s⟩
        ⟨levels, c', port.type, (plan.inlinedInputs (plan.inlineValue lib levels) n.node
          (plan.resolveAll n).value before (plan.opened n s)).2⟩

/-- The request comes up on a path. -/
structure On (plan : Plan) (root : Connection) (path : List String) (r : Request) : Prop where
  levels : r.levels + path.length = plan.settings.inlineDepth
  asked : ∀ m, plan.followed? r.connection = some m → plan.Asked root path m.node.id

theorem on_first (plan : Plan) (root : Connection) : (first plan root).On plan root [] :=
  ⟨rfl, fun m hm => ⟨m, hm, rfl⟩⟩

theorem On.reaches (lib : Library) (h : r.On plan root path) :
    Reaches plan lib root ⟨path, r.state⟩ ⟨path, (r.answer plan lib).2⟩ ∧
      (r.answer plan lib).2.Gives plan r.connection r.target (r.answer plan lib).1 :=
  Plan.follows_inlineValue lib h.levels r.connection h.asked r.target r.state

theorem snd_inlinedInputs_append (follow : Follow) (n : Node) (params : Dict Resolved)
    (before after : List Port) (s : Inlining) :
    (plan.inlinedInputs follow n params (before ++ after) s).2 =
      (plan.inlinedInputs follow n params after
        (plan.inlinedInputs follow n params before s).2).2 := by
  induction before generalizing s with
  | nil => rfl
  | cons port rest ih => exact ih _

/-- **What a request makes lies within its run**: steps lead from the one to the other, and from the
answer of the inner one to that of the outer one. -/
theorem Makes.within (hmakes : Makes plan lib r r') (hr : r.On plan root path) :
    ∃ path', r'.On plan root path' ∧ Reaches plan lib root ⟨path, r.state⟩ ⟨path', r'.state⟩ ∧
      Reaches plan lib root ⟨path', (r'.answer plan lib).2⟩ ⟨path, (r.answer plan lib).2⟩ := by
  obtain @⟨levels, c, c', target, s, n, before, after, port, hn, hnew, hinputs, hc⟩ := hmakes
  have hnode := Plan.typedNode?_of_followed? hn
  have hport : port ∈ n.type.inputs := by simp [hinputs]
  have hlevels : levels + (n.node.id :: path).length = plan.settings.inlineDepth := by
    have := hr.levels
    simp only [List.length_cons] at this ⊢
    omega
  have hfollow : plan.Follows lib root (n.node.id :: path) (plan.inlineValue lib levels) :=
    Plan.follows_inlineValue lib hlevels
  set params := (plan.resolveAll n).value
  set earlier := (plan.inlinedInputs (plan.inlineValue lib levels) n.node params before
    (plan.opened n s)).2
  set inputs := plan.inlinedInputs (plan.inlineValue lib levels) n.node params n.type.inputs
    (plan.opened n s)
  -- the inputs are those before, this one and those after
  have hsplit : inputs.2 = (plan.inlinedInputs (plan.inlineValue lib levels) n.node params after
      (plan.inlineValue lib levels c' port.type earlier).2).2 := by
    simp only [inputs]
    rw [hinputs, snd_inlinedInputs_append, Plan.inlinedInputs, Plan.inlinedInput, hc]
  obtain ⟨-, hgiven⟩ :=
    Plan.reaches_inlinedInputs hfollow hnode (fun _ hport => hport) (plan.opened n s)
  refine ⟨n.node.id :: path, ⟨hlevels, fun m hm => ⟨n, hnode, port, hport, c', hc, m, hm, rfl⟩⟩,
    ?_, ?_⟩
  · refine (Plan.reaches_opened lib hnode hnew (hr.asked n hn)).trans ?_
    exact (Plan.reaches_inlinedInputs hfollow hnode (by simp +contextual [hinputs])
      (plan.opened n s)).1
  · have hanswer : (answer plan lib ⟨levels + 1, c, target, s⟩).2
        = plan.closed lib n inputs.1 inputs.2 := by
      rw [answer, Plan.snd_inlineValue_of_followed? lib hn, Plan.inlineNode_of_not_mem hnew]
    rw [hanswer]
    refine .trans ?_ (Plan.reaches_closed lib hnode hgiven)
    rw [hsplit]
    exact (Plan.reaches_inlinedInputs hfollow hnode (by simp +contextual [hinputs]) _).1

/-- Every request lies within the run of the function. -/
theorem within_first (hmade : ReflTransGen (Makes plan lib) (first plan root) r) :
    ∃ path, r.On plan root path ∧ Reaches plan lib root ⟨[], {}⟩ ⟨path, r.state⟩ ∧
      Reaches plan lib root ⟨path, (r.answer plan lib).2⟩
        ⟨[], ((first plan root).answer plan lib).2⟩ := by
  induction hmade with
  | refl => exact ⟨[], on_first plan root, .refl, .refl⟩
  | tail _ hmakes ih =>
    obtain ⟨path, hon, hbefore, hafter⟩ := ih
    obtain ⟨path', hon', hdown, hup⟩ := hmakes.within hon
    exact ⟨path', hon', hbefore.trans hdown, hup.trans hafter⟩

end Request

/-! ## The function -/

namespace Plan

variable {plan : Plan}

/-- Connections that lead upwards in some rank do not run in a circle. -/
theorem not_transGen_reads (rank : String → Nat)
    (h : ∀ c ∈ plan.graph.connections, rank c.sourceId < rank c.targetId) (id : String) :
    ¬ TransGen plan.Reads id id := by
  have hreads : ∀ {a b}, plan.Reads a b → rank b < rank a := by
    rintro a b ⟨n, -, port, -, c, hc, m, hm, rfl⟩
    obtain ⟨hmem, rfl⟩ := mem_of_portConnection? hc
    rw [id_of_typedNode? (followed?_eq_some_iff.1 hm).2.1]
    exact h c hmem
  have hfalls : ∀ {a b}, TransGen plan.Reads a b → rank b < rank a := by
    intro a b hab
    induction hab with
    | single hab => exact hreads hab
    | tail _ hbc ih => exact Nat.lt_trans (hreads hbc) ih
  exact fun hcycle => Nat.lt_irrefl _ (hfalls hcycle)

end Plan

/-- **A distance function is well formed**, whatever the graph and the order of execution, cycles
included. It declares its local variables, holds the blocks that are not blank in their order, each
in braces, and returns what is answered to the first request. It ends: no request is deeper than the
graph has nodes, and there is at most one block for each of them. With more levels than nodes
nothing is cut off. No node has two blocks, and the local variables are those of the nodes with
blocks. What is answered to a request is a uniform, zero or an inline variable, and an inline
variable is among the local variables. So is what a block has for its connected inputs, and a block
is the code of its node with the inputs filled in. All blocks are of nodes that lie behind the
connection.

If nothing was cut off, the blocks are of all nodes that lie behind the connection, and if moreover
no node reads itself through others, the block of a node comes after those of all nodes that it
reads. -/
theorem marchFunction_wellFormed (plan : Plan) (lib : Library) (name : String) (c : Connection) :
    let run := (Request.first plan c).answer plan lib
    let s := run.2
    let ids := s.blocks.map (·.nodeId)
    plan.marchFunction lib name c = ⟨"float " ++ name ++ "(vec3 " ++ plan.settings.marchPoint
      ++ ") \x7b\n" ++ "\n".intercalate
        ((s.locals.map fun l =>
            "    " ++ l.type.name ++ " " ++ l.symbol ++ " = " ++ l.type.zero ++ ";")
          ++ ((s.blocks.filter fun block => !Text.isBlankText block.code).map fun block =>
            "    \x7b\n" ++ Text.indent 8 block.code ++ "\n    \x7d")
          ++ ["    return " ++ run.1 ++ ";"])
      ++ "\n\x7d", s.warnings⟩ ∧
    (∀ r, ReflTransGen (Request.Makes plan lib) (.first plan c) r →
      plan.settings.inlineDepth ≤ r.levels + plan.graph.nodeIds.length ∧
      plan.InlinedAs ids s.locals (Cut s.warnings) r.connection r.target (r.answer plan lib).1) ∧
    ids.Nodup ∧ ids.length ≤ plan.graph.nodeIds.length ∧ s.locals = plan.localsFor ids ∧
    (∀ block ∈ s.blocks, plan.WritesBlock lib ids s.locals (Cut s.warnings) block) ∧
    (plan.graph.nodeIds.length < plan.settings.inlineDepth → ¬ Cut s.warnings) ∧
    (∀ id ∈ ids, plan.LiesBehind c id) ∧
    (¬ Cut s.warnings → (∀ id, id ∈ ids ↔ plan.LiesBehind c id) ∧
      ((∀ id, ¬ TransGen plan.Reads id id) → Ordered plan.Reads ids)) := by
  intro run s ids
  have hsound :=
    (InlineState.Sound.start plan lib c).reaches ((Request.on_first plan c).reaches lib).1
  have hbegun : s.begun.Perm ids := hsound.begun
  have hlocals : plan.localsFor s.begun ⊆ s.locals := by
    rw [show s.locals = plan.localsFor ids from hsound.locals]
    exact Plan.localsFor_subset hbegun.subset
  have hrequest : ∀ r, ReflTransGen (Request.Makes plan lib) (.first plan c) r →
      plan.settings.inlineDepth ≤ r.levels + plan.graph.nodeIds.length ∧
      plan.InlinedAs ids s.locals (Cut s.warnings) r.connection r.target (r.answer plan lib).1 := by
    intro r hmade
    obtain ⟨path, hon, hbefore, hafter⟩ := Request.within_first hmade
    have hpath := ((InlineState.Sound.start plan lib c).reaches hbefore).length_path
    have hgives := InlineState.Reaches.gives hafter (hon.reaches lib).2
    have hlevels := hon.levels
    refine ⟨?_, hgives.mono hbegun.subset hlocals id⟩
    simp only at hpath
    omega
  have hbehind : ∀ id ∈ ids, plan.LiesBehind c id :=
    fun id hid => hsound.behind id (hbegun.mem_iff.2 hid)
  have hnodup : ids.Nodup := hbegun.nodup_iff.1 hsound.nodup
  have hknown : ids ⊆ plan.graph.nodeIds := fun id hid => hsound.known id (hbegun.mem_iff.2 hid)
  refine ⟨rfl, hrequest, hnodup, (List.subperm_of_subset hnodup hknown).length_le, hsound.locals,
    fun block hblock => (hsound.blocks block hblock).mono hbegun.subset hlocals id,
    fun hlevels hcut => absurd (hsound.depth hcut) (Nat.not_le.2 hlevels), hbehind,
    fun hcut => ⟨fun id => ⟨hbehind id, ?_⟩, fun hacyclic => hsound.ordered hacyclic hcut⟩⟩
  rintro ⟨n, hn, hpath⟩
  -- what the connection leads to has a block, and so has what a node with a block reads
  induction hpath with
  | refl => exact ((hrequest _ .refl).2.mem_of_followed? hn).resolve_right hcut
  | tail _ hreads ih => exact hbegun.mem_iff.1 ((hsound.reads ih hreads).resolve_right hcut)

/-- A type of nodes that join two values. -/
def NodeType.blend : NodeType :=
  { (((bare "blend" "tool").withInput (.plain "x" .float)).withInput (.plain "y" .float)).withOutput
      (.plain "z" .float) with
    mainCode := "$output.z = $input.x + $input.y;" }

/-- Three blends, the first of the second and the third, the second of the third and of a virtual
source. -/
def Graph.lattice : Graph where
  id := "lattice"
  name := "lattice"
  version := formatVersion
  nodes := [.bare "a" "blend", .bare "b" "blend", .bare "c" "blend"]
  connections := [.between "1" ("b", "z") "a" (.port "x"), .between "2" ("c", "z") "a" (.port "y"),
    .between "3" ("virtual:w", "z") "b" (.port "x"), .between "4" ("c", "z") "b" (.port "y")]
  lanes := []

/-- The third blend is read twice and written once, first of all. -/
theorem marchFunction_lattice :
    let plan := Plan.ofGraph (.ofList [.blend]) {} .lattice []
    let root := Connection.between "0" ("a", "z") "eye" (.port "sdf")
    let s := (plan.inlineValue {} 32 root .float {}).2
    (plan.marchFunction {} "f" root).value = "\n".intercalate [
      "float f(vec3 marchPos) \x7b",
      "    float rm_c_z = 0.0;",
      "    float rm_b_z = 0.0;",
      "    float rm_a_z = 0.0;",
      "    \x7b", "        rm_c_z = 0.0 + 0.0;", "    \x7d",
      "    \x7b", "        rm_b_z = u_virtual_w + rm_c_z;", "    \x7d",
      "    \x7b", "        rm_a_z = rm_b_z + rm_c_z;", "    \x7d",
      "    return rm_a_z;",
      "\x7d"] ∧
    s.blocks.map (·.nodeId) = ["c", "b", "a"] ∧ ¬ Cut s.warnings ∧
    (∀ id, ¬ TransGen plan.Reads id id) ∧ Ordered plan.Reads ["c", "b", "a"] ∧
    ∀ id, id ∈ ["c", "b", "a"] ↔ plan.LiesBehind root id := by
  intro plan root s
  obtain ⟨-, -, -, -, -, -, hshallow, -, hall⟩ := marchFunction_wellFormed plan {} "f" root
  have hids : s.blocks.map (·.nodeId) = ["c", "b", "a"] := by decide +kernel
  have hcut : ¬ Cut s.warnings := hshallow (by decide +kernel)
  have hacyclic : ∀ id, ¬ TransGen plan.Reads id id :=
    Plan.not_transGen_reads (fun id => if id = "a" then 2 else if id = "b" then 1 else 0)
      (by decide)
  obtain ⟨hbehind, hordered⟩ := hall hcut
  refine ⟨by decide +kernel, hids, hcut, hacyclic, ?_, ?_⟩
  · rw [← hids]
    exact hordered hacyclic
  · rw [← hids]
    exact hbehind

end ShaderGraph
