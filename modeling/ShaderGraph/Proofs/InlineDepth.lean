import ShaderGraph.Proofs.Inlining
import Mathlib.Data.List.Induction

/-!
# How deep inlining goes

The settings say how many connections deep a distance function may reach, and what is deeper is cut
off: zero stands for it. Depth is counted along the way that the run takes. A node is begun where
the run comes to it first, and if it comes there by a long way, what the node reads is cut off
although a short way leads there as well. Which way is first depends on the order of the inputs.

So cuts may fall on nodes within the depth. Where connections do not run in circles, they do not,
whatever the order of the inputs, exactly if no node is the source both of a connection at the full
depth and of one above it. Then all nodes within the depth are inlined.
-/

namespace ShaderGraph

open Relation

/-! ## Ways -/

namespace Plan

variable {plan : Plan} {lib : Library} {root c : Connection} {way : List (String × Port)}

/-- A way from a connection to one that is read further on, with the inputs that it passes, the last
first. -/
inductive Way (plan : Plan) (root : Connection) : List (String × Port) → Connection → Prop where
  | root : Way plan root [] root
  | input {way : List (String × Port)} {c c' : Connection} {n : TypedNode} {port : Port}
      (hway : Way plan root way c) (hn : plan.followed? c = some n) (hport : port ∈ n.type.inputs)
      (hc : plan.graph.portConnection? n.node.id port.name = some c') :
      Way plan root ((n.node.id, port) :: way) c'

/-- A way passes that many inputs. -/
def Leads (plan : Plan) (root : Connection) (depth : Nat) (c : Connection) : Prop :=
  ∃ way, plan.Way root way c ∧ way.length = depth

/-- The distance of a node is below a limit. It is zero for the source of the first connection, and
one more for each connection that is followed. -/
def Within (plan : Plan) (root : Connection) (limit : Nat) (id : String) : Prop :=
  ∃ depth < limit, ∃ c, plan.Leads root depth c ∧ c.sourceId = id

theorem Way.mem_inputs (h : plan.Way root way c) {e : String × Port} (he : e ∈ way) :
    ∃ n, plan.typedNode? e.1 = some n ∧ e.2 ∈ n.type.inputs := by
  induction h with
  | root => cases he
  | @input _ _ _ n port _ hn hport _ ih =>
    rcases List.mem_cons.1 he with rfl | he
    · exact ⟨n, typedNode?_of_followed? hn, hport⟩
    · exact ih he

/-- All nodes on a way lead to its end. -/
theorem Way.transGen (h : plan.Way root way c) {m : TypedNode} (hm : plan.followed? c = some m)
    {e : String × Port} (he : e ∈ way) : TransGen plan.Reads e.1 m.node.id := by
  induction h generalizing m with
  | root => cases he
  | @input _ _ c' n port _ hn hport hc ih =>
    have hreads : plan.Reads n.node.id m.node.id :=
      ⟨n, typedNode?_of_followed? hn, port, hport, c', hc, m, hm, rfl⟩
    rcases List.mem_cons.1 he with rfl | he
    · exact .single hreads
    · exact (ih hn he).tail hreads

/-- No way passes a node twice, unless connections run in a circle. -/
theorem Way.nodup (hacyclic : ∀ id, ¬ TransGen plan.Reads id id) (h : plan.Way root way c) :
    (way.map Prod.fst).Nodup := by
  induction h with
  | root => exact List.nodup_nil
  | @input way _ _ n port hway hn _ _ ih =>
    refine List.nodup_cons.2 ⟨fun hmem => ?_, ih⟩
    obtain ⟨e, he, heq⟩ := List.mem_map.1 hmem
    exact hacyclic _ (heq ▸ hway.transGen hn he)

/-- Where every connection goes up one step, all ways to a node have one length. -/
theorem Leads.rank {rank : String → Nat}
    (hrank : ∀ c ∈ plan.graph.connections, rank c.sourceId + 1 = rank c.targetId) {depth : Nat}
    (h : plan.Leads root depth c) : rank c.sourceId + depth = rank root.sourceId := by
  obtain ⟨way, hway, rfl⟩ := h
  induction hway with
  | root => rfl
  | @input way c c' n port _ hn _ hc ih =>
    obtain ⟨hmem, htarget⟩ := mem_of_portConnection? hc
    have hstep := hrank c' hmem
    rw [htarget, id_of_typedNode? (followed?_eq_some_iff.1 hn).2.1] at hstep
    rw [List.length_cons]
    omega

end Plan

/-! ## Requests and ways -/

namespace Request

variable {plan : Plan} {lib : Library} {root : Connection} {path : List String} {r : Request}

/-- The answer is zero, with a warning about the depth. -/
def IsCut (plan : Plan) (lib : Library) (r : Request) : Prop :=
  r.answer plan lib
    = r.state.giveUp r.target (.tooDeep plan.settings.inlineDepth r.connection.sourceId)

/-- A new node is asked for, with levels left for it. -/
structure Begins (plan : Plan) (r : Request) (n : TypedNode) : Prop where
  levels : r.levels ≠ 0
  followed : plan.followed? r.connection = some n
  new : n.node.id ∉ r.state.begun

/-- Every request comes at the end of a way, and each input on it has cost a level. -/
theorem exists_way (hmade : ReflTransGen (Makes plan lib) (first plan root) r) :
    ∃ way, plan.Way root way r.connection ∧
      r.levels + way.length = plan.settings.inlineDepth := by
  induction hmade with
  | refl => exact ⟨[], .root, rfl⟩
  | tail _ hmakes ih =>
    obtain ⟨way, hway, hlevels⟩ := ih
    cases hmakes with
    | @input levels c c' _ _ n before after port hn _ hinputs hc =>
      refine ⟨(n.node.id, port) :: way, hway.input hn (by simp [hinputs]) hc, ?_⟩
      simp only [List.length_cons] at hlevels ⊢
      omega

/-- After the answer the node that is asked for is begun, if there was a level for it. -/
theorem On.mem_begun (lib : Library) (h : r.On plan root path) (hlevels : r.levels ≠ 0)
    {n : TypedNode} (hn : plan.followed? r.connection = some n) :
    n.node.id ∈ (r.answer plan lib).2.begun := by
  obtain ⟨levels, c, target, s⟩ := r
  obtain ⟨levels, rfl⟩ := Nat.exists_eq_succ_of_ne_zero hlevels
  have hdeeper : levels + (n.node.id :: path).length = plan.settings.inlineDepth := by
    have hused := h.levels
    simp only [List.length_cons] at hused ⊢
    omega
  rw [answer, Plan.snd_inlineValue_of_followed? lib hn]
  exact (Plan.reaches_inlineNode lib (Plan.follows_inlineValue lib hdeeper)
    (Plan.typedNode?_of_followed? hn) (h.asked n hn) s).2

theorem answer_of_isVirtual (hvirtual : plan.isVirtual r.connection.sourceId = true) :
    r.answer plan lib = (plan.virtualValue r.connection.sourceId r.target, r.state) := by
  rw [answer]
  cases r.levels <;> exact if_pos hvirtual

/-- **A request is cut off exactly if no level is left**, unless it is for a virtual source. -/
theorem On.isCut_iff (h : r.On plan root path) :
    r.IsCut plan lib ↔ r.levels = 0 ∧ plan.isVirtual r.connection.sourceId = false := by
  constructor
  · intro hcut
    have hwarnings : (r.answer plan lib).2.warnings = r.state.warnings
        ++ [.tooDeep plan.settings.inlineDepth r.connection.sourceId] := by
      rw [hcut, Inlining.giveUp]
    -- one warning was added, so the state is not the old one
    have hstate : (r.answer plan lib).2 ≠ r.state := by
      intro hsame
      rw [hsame] at hwarnings
      simp at hwarnings
    cases hvirtual : plan.isVirtual r.connection.sourceId with
    | true => exact absurd (by rw [answer_of_isVirtual hvirtual]) hstate
    | false =>
      refine ⟨by_contra fun hlevels => ?_, rfl⟩
      obtain ⟨levels, hsucc⟩ := Nat.exists_eq_succ_of_ne_zero hlevels
      cases hn : plan.followed? r.connection with
      | none =>
        rw [answer, hsucc, Plan.inlineValue, if_neg (by simp [hvirtual]),
          Plan.inlinedOutput_of_not_followed lib _ hvirtual hn] at hwarnings
        simp [Inlining.giveUp] at hwarnings
      | some n =>
        have hbegun : n.node.id ∈ r.state.begun := by
          have hmem := h.mem_begun lib hlevels hn
          rwa [hcut, Inlining.giveUp] at hmem
        refine hstate ?_
        rw [answer, hsucc, Plan.snd_inlineValue_of_followed? lib hn]
        exact if_pos (List.contains_iff_mem.2 hbegun)
  · rintro ⟨hlevels, hreal⟩
    rw [IsCut, answer, hlevels]
    exact if_neg (by simp [hreal])

/-! ## Nodes that are begun -/

/-- Whatever is begun in a state was begun before the request, or is begun for one that comes of
it. -/
def Brings (plan : Plan) (lib : Library) (r : Request) (s : Inlining) : Prop :=
  ∀ id ∈ s.begun, id ∈ r.state.begun ∨
    ∃ r' n, ReflTransGen (Makes plan lib) r r' ∧ r'.Begins plan n ∧ n.node.id = id

section Inputs

variable {levels : Nat} {c : Connection} {target : ValueType} {s : Inlining} {n : TypedNode}

/-- What is begun for the inputs of a node is begun for requests that it makes. -/
theorem brings_inlinedInputs
    (hdeeper : ∀ c target s, Brings plan lib ⟨levels, c, target, s⟩
      (plan.inlineValue lib levels c target s).2)
    (hn : plan.followed? c = some n) (hnew : n.node.id ∉ s.begun) {before after : List Port}
    (hinputs : n.type.inputs = before ++ after) :
    Brings plan lib ⟨levels + 1, c, target, s⟩ (plan.inlinedInputs (plan.inlineValue lib levels)
      n.node (plan.resolveAll n).value before (plan.opened n s)).2 := by
  -- a request is made when the inputs before it are dealt with, so these are taken one by one
  induction before using List.reverseRecOn generalizing after with
  | nil =>
    intro id hid
    rcases List.mem_append.1 hid with hid | hid
    · exact .inl hid
    · exact .inr ⟨_, n, .refl, ⟨Nat.succ_ne_zero _, hn, hnew⟩, (List.mem_singleton.1 hid).symm⟩
  | append_singleton before port ih =>
    rw [List.append_assoc, List.singleton_append] at hinputs
    have hbefore := ih hinputs
    rw [snd_inlinedInputs_append]
    simp only [Plan.inlinedInputs, Plan.inlinedInput]
    cases hc : plan.graph.portConnection? n.node.id port.name with
    | none => exact hbefore
    | some c' =>
      intro id hid
      rcases hdeeper c' port.type _ id hid with hid | ⟨r', m, hmade, hbegins, hm⟩
      · exact hbefore id hid
      · exact .inr ⟨r', m, .head (.input hn hnew hinputs hc) hmade, hbegins, hm⟩

end Inputs

/-- **Every node is begun for a request.** -/
theorem brings_answer (plan : Plan) (lib : Library) (r : Request) :
    Brings plan lib r (r.answer plan lib).2 := by
  obtain ⟨levels, c, target, s⟩ := r
  induction levels generalizing c target s with
  | zero =>
    rw [answer, Plan.inlineValue]
    split <;> exact fun id hid => .inl hid
  | succ levels ih =>
    rw [answer, Plan.inlineValue]
    cases hvirtual : plan.isVirtual c.sourceId with
    | true => exact fun id hid => .inl hid
    | false =>
      rw [if_neg Bool.false_ne_true]
      cases hn : plan.followed? c with
      | none =>
        rw [Plan.inlinedOutput_of_not_followed lib _ hvirtual hn]
        exact fun id hid => .inl hid
      | some n =>
        obtain ⟨port, -, houtput⟩ := plan.inlinedOutput_of_followed? lib
          (plan.inlineValue lib levels) hn target s
        rw [houtput]
        by_cases hnew : n.node.id ∈ s.begun
        · rw [Plan.inlineNode, if_pos (List.contains_iff_mem.2 hnew)]
          exact fun id hid => .inl hid
        · rw [Plan.inlineNode_of_not_mem hnew]
          have hall : n.type.inputs = n.type.inputs ++ [] := (List.append_nil _).symm
          exact brings_inlinedInputs ih hn hnew hall

end Request

namespace Plan

variable {plan plan' : Plan} {lib : Library} {root c : Connection} {way : List (String × Port)}
  {id : String}

/-! ## Cuts -/

/-- What is cut off lies at the full depth or beyond, by every way. -/
def CutsFar (plan : Plan) (lib : Library) (root : Connection) : Prop :=
  ∀ r, ReflTransGen (Request.Makes plan lib) (.first plan root) r → r.IsCut plan lib →
    ¬ plan.Within root plan.settings.inlineDepth r.connection.sourceId

/-- The nodes that are inlined. -/
def inlinedIds (plan : Plan) (lib : Library) (root : Connection) : List String :=
  ((Request.first plan root).answer plan lib).2.blocks.map (·.nodeId)

/-- The nodes that are inlined are those that are begun. -/
theorem mem_inlinedIds : id ∈ plan.inlinedIds lib root ↔
    id ∈ ((Request.first plan root).answer plan lib).2.begun := by
  have hsound := (InlineState.Sound.start plan lib root).reaches
    ((Request.on_first plan root).reaches lib).1
  exact hsound.begun.mem_iff.symm

/-- What is asked for with a level left is inlined. -/
theorem mem_inlinedIds_of_made {r : Request} {n : TypedNode}
    (hmade : ReflTransGen (Request.Makes plan lib) (.first plan root) r) (hlevels : r.levels ≠ 0)
    (hn : plan.followed? r.connection = some n) : n.node.id ∈ plan.inlinedIds lib root := by
  obtain ⟨path, hon, -, hafter⟩ := Request.within_first hmade
  exact mem_inlinedIds.2 (hafter.mono.1 (hon.mem_begun lib hlevels hn))

/-- An inlined node is begun for a request of the run. -/
theorem exists_begins (hid : id ∈ plan.inlinedIds lib root) :
    ∃ r n, ReflTransGen (Request.Makes plan lib) (.first plan root) r ∧ r.Begins plan n ∧
      n.node.id = id :=
  (Request.brings_answer plan lib (.first plan root) id (mem_inlinedIds.1 hid)).resolve_left
    List.not_mem_nil

/-- What is cut off is at the end of a way of the full depth. -/
theorem leads_of_isCut {r : Request}
    (hmade : ReflTransGen (Request.Makes plan lib) (.first plan root) r) (hcut : r.IsCut plan lib) :
    plan.Leads root plan.settings.inlineDepth r.connection ∧
      plan.isVirtual r.connection.sourceId = false := by
  obtain ⟨path, hon, -, -⟩ := Request.within_first hmade
  obtain ⟨hlevels, hreal⟩ := hon.isCut_iff.1 hcut
  obtain ⟨way, hway, hlength⟩ := Request.exists_way hmade
  exact ⟨⟨way, hway, by omega⟩, hreal⟩

/-- Every inlined node has a way to it that is shorter than the depth. -/
theorem exists_leads_of_mem_inlinedIds (hid : id ∈ plan.inlinedIds lib root) :
    ∃ depth < plan.settings.inlineDepth, ∃ c n, plan.Leads root depth c ∧
      plan.followed? c = some n ∧ n.node.id = id := by
  obtain ⟨r, n, hmade, hbegins, hn⟩ := exists_begins hid
  obtain ⟨way, hway, hlength⟩ := Request.exists_way hmade
  have hlevels := hbegins.levels
  exact ⟨way.length, by omega, r.connection, n, ⟨way, hway, rfl⟩, hbegins.followed, hn⟩

/-- **Where cuts are far, all that is near is inlined.** -/
theorem CutsFar.mem_inlinedIds (h : plan.CutsFar lib root) (hway : plan.Way root way c)
    (hlength : way.length < plan.settings.inlineDepth) {n : TypedNode}
    (hn : plan.followed? c = some n) : n.node.id ∈ plan.inlinedIds lib root := by
  induction hway generalizing n with
  | root => exact mem_inlinedIds_of_made .refl (by simp only [Request.first]; omega) hn
  | @input way c c' m port hway hm hport hc ih =>
    rw [List.length_cons] at hlength
    obtain ⟨r, m', hmade, hbegins, hid⟩ := exists_begins (ih (by omega) hm)
    -- the node that reads this one was begun somewhere, and made its requests there
    obtain rfl : m' = m := by
      have hm' := typedNode?_of_followed? hbegins.followed
      rw [hid, typedNode?_of_followed? hm] at hm'
      exact (Option.some.inj hm').symm
    obtain ⟨before, after, hinputs⟩ := List.append_of_mem hport
    obtain ⟨levels, c'', target, s⟩ := r
    obtain ⟨levels, rfl⟩ := Nat.exists_eq_succ_of_ne_zero hbegins.levels
    have hmade' := hmade.tail (.input hbegins.followed hbegins.new hinputs hc)
    refine mem_inlinedIds_of_made hmade' (fun hlevels => ?_) hn
    -- with no level left it would have been cut off, near as it is
    obtain ⟨path, hon, -, -⟩ := Request.within_first hmade'
    refine h _ hmade' (hon.isCut_iff.2 ⟨hlevels, (followed?_eq_some_iff.1 hn).1⟩) ?_
    exact ⟨_, hlength, c', ⟨_, hway.input hm hport hc, rfl⟩, rfl⟩

end Plan

/-! ## The order of inputs -/

/-- The nodes differ at most in the order of their inputs and in the name of their type. -/
structure TypedNode.Reorders (n n' : TypedNode) : Prop where
  node : n'.node = { n.node with type := n'.node.type }
  type : n'.type = { n.type with id := n'.type.id, inputs := n'.type.inputs }
  inputs : n'.type.inputs.Perm n.type.inputs

/-- The plans differ at most in the order of the inputs of their nodes. -/
structure Plan.Reorders (plan plan' : Plan) : Prop where
  rest : plan' = { plan with
    catalog := plan'.catalog, graph := { plan.graph with nodes := plan'.graph.nodes } }
  nodes : ∀ id, Option.Rel TypedNode.Reorders (plan.typedNode? id) (plan'.typedNode? id)

theorem TypedNode.Reorders.symm {n n' : TypedNode} (h : n.Reorders n') : n'.Reorders n where
  node := by rw [h.node]
  type := by rw [h.type]
  inputs := h.inputs.symm

theorem TypedNode.reorders_refl (n : TypedNode) : n.Reorders n := ⟨rfl, rfl, .refl _⟩

namespace Plan

theorem reorders_refl (plan : Plan) : plan.Reorders plan where
  rest := rfl
  nodes := fun id => by
    cases plan.typedNode? id with
    | none => exact .none
    | some n => exact .some n.reorders_refl

namespace Reorders

variable {plan plan' : Plan} {root c : Connection} {id : String} (h : plan.Reorders plan')

include h

theorem symm : plan'.Reorders plan where
  rest := by rw [h.rest]
  nodes := fun id => by
    have hid := h.nodes id
    revert hid
    cases plan.typedNode? id <;> cases plan'.typedNode? id <;> intro hid <;> cases hid
    · exact .none
    · exact .some (TypedNode.Reorders.symm ‹_›)

theorem settings_eq : plan'.settings = plan.settings := by rw [h.rest]

theorem isVirtual_eq : plan'.isVirtual id = plan.isVirtual id := by
  rw [Plan.isVirtual, Plan.isVirtual, h.settings_eq]

theorem portConnection?_eq (nodeId port : String) :
    plan'.graph.portConnection? nodeId port = plan.graph.portConnection? nodeId port := by
  rw [h.rest]
  rfl

/-- What is followed is the same up to the order of inputs. -/
theorem exists_followed? {n : TypedNode} (hn : plan.followed? c = some n) :
    ∃ n', plan'.followed? c = some n' ∧ n.Reorders n' := by
  obtain ⟨hreal, hnode, houtput⟩ := followed?_eq_some_iff.1 hn
  have hrel := h.nodes c.sourceId
  rw [hnode] at hrel
  cases hnode' : plan'.typedNode? c.sourceId with
  | none =>
    rw [hnode'] at hrel
    cases hrel
  | some n' =>
    rw [hnode'] at hrel
    obtain ⟨hsame⟩ := hrel
    refine ⟨n', followed?_eq_some_iff.2 ⟨by rw [h.isVirtual_eq, hreal], hnode', ?_⟩, hsame⟩
    rw [hsame.type]
    exact houtput

theorem way {passed : List (String × Port)} (hway : plan.Way root passed c) :
    plan'.Way root passed c := by
  induction hway with
  | root => exact .root
  | @input _ _ c' n port _ hn hport hc ih =>
    obtain ⟨n', hn', hsame⟩ := h.exists_followed? hn
    have hid : n'.node.id = n.node.id := by rw [hsame.node]
    rw [← hid]
    refine ih.input hn' (hsame.inputs.mem_iff.2 hport) ?_
    rw [hid, h.portConnection?_eq, hc]

theorem leads {depth : Nat} (hleads : plan.Leads root depth c) : plan'.Leads root depth c := by
  obtain ⟨way, hway, hlength⟩ := hleads
  exact ⟨way, h.way hway, hlength⟩

theorem within {limit : Nat} (hwithin : plan.Within root limit id) :
    plan'.Within root limit id := by
  obtain ⟨depth, hdepth, c, hleads, hc⟩ := hwithin
  exact ⟨depth, hdepth, c, h.leads hleads, hc⟩

end Reorders

end Plan

/-! ## Inputs brought to the front -/

/-- The node with a type of its own, in which the chosen inputs come first. -/
def TypedNode.preferring (chosen : String → Port → Bool) (n : TypedNode) : TypedNode :=
  ⟨{ n.node with type := n.node.id }, { n.type with
    id := n.node.id
    inputs := n.type.inputs.filter (chosen n.node.id)
      ++ n.type.inputs.filter (!chosen n.node.id ·) }⟩

theorem TypedNode.reorders_preferring (chosen : String → Port → Bool) (n : TypedNode) :
    n.Reorders (n.preferring chosen) where
  node := rfl
  type := rfl
  inputs := List.filter_append_perm _ _

namespace Plan

variable {plan : Plan} {lib : Library} {root c : Connection} {way : List (String × Port)}
  {id : String} {chosen : String → Port → Bool}

/-- The plan in which chosen inputs come first. -/
def preferring (plan : Plan) (chosen : String → Port → Bool) : Plan :=
  { plan with
    catalog := ⟨plan.graph.nodes.filterMap fun n =>
      (plan.typedNode? n.id).map fun m => (m.preferring chosen).type⟩
    graph := { plan.graph with
      nodes := plan.graph.nodes.map fun n => { n with type := n.id } } }

theorem node?_preferring (id : String) : (plan.preferring chosen).graph.node? id
    = (plan.graph.node? id).map fun n => { n with type := n.id } := by
  rw [Graph.node?, preferring, List.find?_map]
  rfl

/-- The types are found by the ids of their nodes. -/
theorem find?_preferring {n : Node} (hn : plan.graph.node? id = some n) :
    (plan.preferring chosen).catalog.find? id
      = (plan.typedNode? id).map fun m => (m.preferring chosen).type := by
  have htype : ∀ {t : NodeType}, t ∈ (plan.preferring chosen).catalog.types → t.id = id →
      (plan.typedNode? id).map (fun m => (m.preferring chosen).type) = some t := by
    intro t ht hid
    obtain ⟨n', -, ht⟩ := List.mem_filterMap.1 ht
    obtain ⟨m, hm, rfl⟩ := Option.map_eq_some_iff.1 ht
    have hsame : n'.id = id := (id_of_typedNode? hm).symm.trans hid
    rw [← hsame, hm, Option.map_some]
  cases hfound : (plan.preferring chosen).catalog.find? id with
  | some t =>
    have hid : t.id = id := by simpa using List.find?_some hfound
    exact (htype (List.mem_of_find?_eq_some hfound) hid).symm
  | none =>
    cases hm : plan.typedNode? id with
    | none => rfl
    | some m =>
      -- the type of the node would have been found
      have hid : n.id = id := by simpa using List.find?_some hn
      have hmem : (m.preferring chosen).type ∈ (plan.preferring chosen).catalog.types :=
        List.mem_filterMap.2 ⟨n, List.mem_of_find?_eq_some hn, by rw [hid, hm, Option.map_some]⟩
      have hne := List.find?_eq_none.1 hfound _ hmem
      exact absurd (beq_iff_eq.2 (id_of_typedNode? hm)) hne

theorem typedNode?_preferring (id : String) : (plan.preferring chosen).typedNode? id
    = (plan.typedNode? id).map (TypedNode.preferring chosen) := by
  rw [typedNode?, node?_preferring]
  cases hn : plan.graph.node? id with
  | none => simp [typedNode?, hn]
  | some n =>
    have hid : n.id = id := by simpa using List.find?_some hn
    simp only [Option.map_some, Option.bind_some]
    rw [hid, find?_preferring hn, typedNode?, hn, Option.bind_some, Option.map_map, Option.map_map,
      Option.map_map]
    refine congrFun (congrArg Option.map (funext fun t => ?_)) _
    simp [TypedNode.preferring, hid]

theorem reorders_preferring (plan : Plan) (chosen : String → Port → Bool) :
    plan.Reorders (plan.preferring chosen) where
  rest := rfl
  nodes := fun id => by
    rw [typedNode?_preferring]
    cases plan.typedNode? id with
    | none => exact .none
    | some n => exact .some (n.reorders_preferring chosen)

/-- The inputs of a way come first if they are chosen. -/
theorem exists_first_preferring (hacyclic : ∀ id, ¬ TransGen plan.Reads id id)
    (hway : plan.Way root way c) {e : String × Port} (he : e ∈ way) :
    ∃ n rest, (plan.preferring fun id port => way.contains (id, port)).typedNode? e.1 = some n ∧
      n.type.inputs = e.2 :: rest := by
  obtain ⟨n, hn, hport⟩ := hway.mem_inputs he
  have hid : n.node.id = e.1 := id_of_typedNode? hn
  have hmem : e.2 ∈ n.type.inputs.filter fun port => way.contains (n.node.id, port) :=
    List.mem_filter.2 ⟨hport, by simpa [hid] using he⟩
  refine ⟨n.preferring fun id port => way.contains (id, port), ?_⟩
  rw [typedNode?_preferring, hn, Option.map_some]
  cases hfront : n.type.inputs.filter fun port => way.contains (n.node.id, port) with
  | nil =>
    rw [hfront] at hmem
    cases hmem
  | cons port rest =>
    -- a node is passed once, so no other input of it is on the way
    have hport : (n.node.id, port) ∈ way := by
      have hchosen := (List.mem_filter.1 (hfront ▸ List.mem_cons_self : port ∈ _)).2
      simpa using hchosen
    have heq : (n.node.id, port) = e :=
      List.inj_on_of_nodup_map (hway.nodup hacyclic) hport he hid
    refine ⟨rest ++ n.type.inputs.filter (fun port => !way.contains (n.node.id, port)), rfl, ?_⟩
    simp only [TypedNode.preferring, hfront, ← heq]
    exact List.cons_append

/-- A way along first inputs is taken by the run. -/
theorem Way.exists_made (hway : plan.Way root way c) (lib : Library)
    (hfirst : ∀ e ∈ way, ∃ n rest, plan.typedNode? e.1 = some n ∧ n.type.inputs = e.2 :: rest)
    (hnodup : (way.map Prod.fst).Nodup) (hlength : way.length ≤ plan.settings.inlineDepth) :
    ∃ target s, s.begun ⊆ way.map Prod.fst ∧ ReflTransGen (Request.Makes plan lib)
      (.first plan root) ⟨plan.settings.inlineDepth - way.length, c, target, s⟩ := by
  induction hway with
  | root => exact ⟨.float, {}, List.nil_subset _, .refl⟩
  | @input way c c' n port _ hn _ hc ih =>
    obtain ⟨hnew, hnodup⟩ := List.nodup_cons.1 hnodup
    obtain ⟨⟨n', rest, hn', hinputs⟩, hfirst⟩ := List.forall_mem_cons.1 hfirst
    rw [typedNode?_of_followed? hn] at hn'
    obtain rfl := Option.some.inj hn'
    rw [List.length_cons] at hlength ⊢
    obtain ⟨target, s, hbegun, hmade⟩ := ih hfirst hnodup (by omega)
    obtain ⟨levels, hlevels⟩ : ∃ levels, plan.settings.inlineDepth - way.length = levels + 1 :=
      ⟨plan.settings.inlineDepth - way.length - 1, by omega⟩
    have hleft : plan.settings.inlineDepth - (way.length + 1) = levels := by omega
    rw [hlevels] at hmade
    rw [hleft]
    -- nothing comes before the first input
    have hinputs : n.type.inputs = [] ++ port :: rest := hinputs
    have hmakes : Request.Makes plan lib ⟨levels + 1, c, target, s⟩
        ⟨levels, c', port.type, plan.opened n s⟩ :=
      .input hn (fun hmem => hnew (hbegun hmem)) hinputs hc
    refine ⟨port.type, plan.opened n s, ?_, hmade.tail hmakes⟩
    exact List.append_subset.2 ⟨fun id hid => List.mem_cons_of_mem _ (hbegun hid), by simp⟩

/-- **A connection at the full depth is cut off in some order of the inputs.** -/
theorem Way.exists_isCut (hacyclic : ∀ id, ¬ TransGen plan.Reads id id)
    (hway : plan.Way root way c) (lib : Library) (hlength : way.length = plan.settings.inlineDepth)
    (hreal : plan.isVirtual c.sourceId = false) :
    ∃ plan', plan.Reorders plan' ∧ ∃ r,
      ReflTransGen (Request.Makes plan' lib) (.first plan' root) r ∧ r.IsCut plan' lib ∧
        r.connection = c := by
  have hreorders := plan.reorders_preferring fun id port => way.contains (id, port)
  obtain ⟨target, s, -, hmade⟩ := (hreorders.way hway).exists_made lib
    (fun e he => exists_first_preferring hacyclic hway he) (hway.nodup hacyclic) (by
      rw [hreorders.settings_eq]
      omega)
  refine ⟨_, hreorders, _, hmade, ?_, rfl⟩
  obtain ⟨path, hon, -, -⟩ := Request.within_first hmade
  refine hon.isCut_iff.2 ⟨?_, by rw [hreorders.isVirtual_eq, hreal]⟩
  rw [hreorders.settings_eq]
  simp only
  omega

end Plan

/-- **Cuts are far in every order of the inputs exactly if ways to a node do not straddle the
depth.** For every graph whose connections do not run in a circle: what is cut off from a distance
function is at the end of a way of the full depth. In no order of the inputs is something cut off
whose distance is less, exactly if no connection at the end of a way of the full depth comes from a
node whose distance is less. Wherever nothing near is cut off, the nodes that are inlined are those
that a way shorter than the depth leads to; so the order of the inputs does not decide which these
are. -/
theorem cuts_far_iff (plan : Plan) (lib : Library) (root : Connection)
    (hacyclic : ∀ id, ¬ TransGen plan.Reads id id) :
    let limit := plan.settings.inlineDepth
    (∀ r, ReflTransGen (Request.Makes plan lib) (.first plan root) r → r.IsCut plan lib →
      plan.Leads root limit r.connection) ∧
    ((∀ plan', plan.Reorders plan' → plan'.CutsFar lib root) ↔
      ∀ c, plan.Leads root limit c → plan.isVirtual c.sourceId = false →
        ¬ plan.Within root limit c.sourceId) ∧
    ∀ plan', plan.Reorders plan' → plan'.CutsFar lib root →
      ∀ id, id ∈ plan'.inlinedIds lib root ↔ ∃ depth < limit, ∃ c n,
        plan.Leads root depth c ∧ plan.followed? c = some n ∧ n.node.id = id := by
  intro limit
  refine ⟨fun r hmade hcut => (Plan.leads_of_isCut hmade hcut).1, ⟨fun h c hleads hreal => ?_,
    fun h plan' hreorders r hmade hcut hwithin => ?_⟩, fun plan' hreorders hfar id => ⟨?_, ?_⟩⟩
  · obtain ⟨way, hway, hlength⟩ := hleads
    obtain ⟨plan', hreorders, r, hmade, hcut, rfl⟩ := hway.exists_isCut hacyclic lib hlength hreal
    intro hwithin
    refine h plan' hreorders r hmade hcut ?_
    rw [hreorders.settings_eq]
    exact hreorders.within hwithin
  · obtain ⟨hleads, hreal⟩ := Plan.leads_of_isCut hmade hcut
    rw [hreorders.settings_eq] at hleads hwithin
    rw [hreorders.isVirtual_eq] at hreal
    exact h r.connection (hreorders.symm.leads hleads) hreal (hreorders.symm.within hwithin)
  · intro hid
    obtain ⟨depth, hdepth, c, n, hleads, hn, rfl⟩ := Plan.exists_leads_of_mem_inlinedIds hid
    obtain ⟨n', hn', hsame⟩ := hreorders.symm.exists_followed? hn
    rw [hreorders.settings_eq] at hdepth
    exact ⟨depth, hdepth, c, n', hreorders.symm.leads hleads, hn', by rw [hsame.node]⟩
  · rintro ⟨depth, hdepth, c, n, ⟨way, hway, rfl⟩, hn, rfl⟩
    obtain ⟨n', hn', hsame⟩ := hreorders.exists_followed? hn
    have hid : n.node.id = n'.node.id := by rw [hsame.node]
    rw [hid]
    exact hfar.mem_inlinedIds (hreorders.way hway) (by rwa [hreorders.settings_eq]) hn'

/-- A blend of two that read one and the same. -/
def Graph.diamond : Graph where
  id := "diamond"
  name := "diamond"
  version := formatVersion
  nodes := [.bare "a" "blend", .bare "b" "blend", .bare "d" "blend", .bare "e" "blend"]
  connections := [.between "1" ("b", "z") "a" (.port "x"), .between "2" ("d", "z") "a" (.port "y"),
    .between "3" ("e", "z") "b" (.port "x"), .between "4" ("e", "z") "d" (.port "x")]
  lanes := []

/-- With two levels the last one is cut off, in every order of the inputs. -/
theorem cuts_far_diamond :
    let plan := Plan.ofGraph (.ofList [.blend]) { inlineDepth := 2 } .diamond []
    let root := Connection.between "0" ("a", "z") "eye" (.port "sdf")
    (∀ id, ¬ TransGen plan.Reads id id) ∧
    Cut ((Request.first plan root).answer plan {}).2.warnings ∧
    ∀ plan', plan.Reorders plan' → plan'.CutsFar {} root ∧
      ∀ id, id ∈ plan'.inlinedIds {} root ↔ id ∈ ["b", "d", "a"] := by
  intro plan root
  let rank : String → Nat := fun id => if id = "a" then 2 else if id = "e" then 0 else 1
  have hrank : ∀ c ∈ plan.graph.connections, rank c.sourceId + 1 = rank c.targetId := by decide
  have hacyclic : ∀ id, ¬ TransGen plan.Reads id id :=
    Plan.not_transGen_reads rank fun c hc => by rw [← hrank c hc]; exact Nat.lt_succ_self _
  have hcut : Cut ((Request.first plan root).answer plan {}).2.warnings :=
    ⟨2, "e", by decide +kernel⟩
  have hids : plan.inlinedIds {} root = ["b", "d", "a"] := by decide +kernel
  obtain ⟨-, hfar, hinlined⟩ := cuts_far_iff plan {} root hacyclic
  have hall : ∀ plan', plan.Reorders plan' → plan'.CutsFar {} root := by
    refine hfar.2 fun c hleads _ hwithin => ?_
    obtain ⟨depth, hdepth, c', hleads', heq⟩ := hwithin
    have hlong := hleads.rank hrank
    have hshort := hleads'.rank hrank
    rw [heq] at hshort
    omega
  refine ⟨hacyclic, hcut, fun plan' hreorders => ⟨hall plan' hreorders, fun id => ?_⟩⟩
  have hself := plan.reorders_refl
  rw [hinlined plan' hreorders (hall plan' hreorders), ← hinlined plan hself (hall plan hself),
    hids]

/-- A blend of two, of which the one reads the other. -/
def Graph.shortcut : Graph where
  id := "shortcut"
  name := "shortcut"
  version := formatVersion
  nodes := [.bare "a" "blend", .bare "b" "blend", .bare "d" "blend", .bare "e" "blend"]
  connections := [.between "1" ("b", "z") "a" (.port "x"), .between "2" ("d", "z") "a" (.port "y"),
    .between "3" ("d", "z") "b" (.port "x"), .between "4" ("e", "z") "d" (.port "x")]
  lanes := []

/-- The last node is two connections away and cut off with three levels, since the run comes to it
by the long way; with the inputs in the other order it is inlined. -/
theorem near_node_cut :
    let plan := Plan.ofGraph (.ofList [.blend]) { inlineDepth := 3 } .shortcut []
    let root := Connection.between "0" ("a", "z") "eye" (.port "sdf")
    let swapped := { NodeType.blend with inputs := NodeType.blend.inputs.reverse }
    (∀ id, ¬ TransGen plan.Reads id id) ∧ plan.Within root 3 "e" ∧
    plan.inlinedIds {} root = ["d", "b", "a"] ∧ ¬ plan.CutsFar {} root ∧
    (Plan.ofGraph (.ofList [swapped]) { inlineDepth := 3 } .shortcut []).inlinedIds {} root
      = ["e", "d", "b", "a"] := by
  intro plan root swapped
  have hacyclic : ∀ id, ¬ TransGen plan.Reads id id :=
    Plan.not_transGen_reads (fun id =>
      if id = "a" then 3 else if id = "b" then 2 else if id = "d" then 1 else 0) (by decide)
  have hids : plan.inlinedIds {} root = ["d", "b", "a"] := by decide +kernel
  have ha : plan.followed? root = some ⟨.bare "a" "blend", .blend⟩ :=
    Plan.followed?_eq_some_iff.2 ⟨by decide +kernel, rfl, by decide +kernel⟩
  have hd : plan.followed? (.between "2" ("d", "z") "a" (.port "y"))
      = some ⟨.bare "d" "blend", .blend⟩ :=
    Plan.followed?_eq_some_iff.2 ⟨by decide +kernel, rfl, by decide +kernel⟩
  have he : plan.followed? (.between "4" ("e", "z") "d" (.port "x"))
      = some ⟨.bare "e" "blend", .blend⟩ :=
    Plan.followed?_eq_some_iff.2 ⟨by decide +kernel, rfl, by decide +kernel⟩
  have hway : plan.Way root [("d", .plain "x" .float), ("a", .plain "y" .float)]
      (.between "4" ("e", "z") "d" (.port "x")) :=
    .input (.input .root ha (by decide) rfl) hd (by decide) rfl
  refine ⟨hacyclic, ⟨2, by decide, _, ⟨_, hway, rfl⟩, rfl⟩, hids, fun hfar => ?_, by decide +kernel⟩
  have hmem := hfar.mem_inlinedIds hway (by decide) he
  rw [hids] at hmem
  exact absurd hmem (by decide)

end ShaderGraph
