import ShaderGraph.Proofs.ExecutionOrder

/-!
# A node beside the others

A node whose id nothing mentions can be put anywhere into the list of nodes, and the order of
execution changes by this one id. The edges are the same, so the loop takes out the same nodes in
the same order: of the degrees it reads those of targets only, and the new node is none. The new id
joins those that stand behind the loop's result, wherever it is put among the nodes.

`Inserts` follows the one element through all the lists on the way, and `placeable_parts` says where
it comes out.
-/

namespace ShaderGraph

/-! ## One element more -/

section Inserts

variable {α β : Type} {a b : α} {l l' : List α}

/-- The second list is the first with one more element somewhere. -/
def Inserts (a : α) (l l' : List α) : Prop := ∃ x y, l = x ++ y ∧ l' = x ++ a :: y

namespace Inserts

theorem mem_iff (h : Inserts a l l') : b ∈ l' ↔ b = a ∨ b ∈ l := by
  obtain ⟨x, y, rfl, rfl⟩ := h
  simp only [List.mem_append, List.mem_cons]
  exact or_left_comm

theorem map (h : Inserts a l l') (f : α → β) : Inserts (f a) (l.map f) (l'.map f) := by
  obtain ⟨x, y, rfl, rfl⟩ := h
  exact ⟨x.map f, y.map f, List.map_append, by rw [List.map_append, List.map_cons]⟩

/-- A condition that the element fails passes it over. -/
theorem filter_of_neg (h : Inserts a l l') {p : α → Bool} (hp : p a = false) :
    l'.filter p = l.filter p := by
  obtain ⟨x, y, rfl, rfl⟩ := h
  rw [List.filter_append, List.filter_append, List.filter_cons_of_neg (by simp [hp])]

theorem filter_of_pos (h : Inserts a l l') {p : α → Bool} (hp : p a = true) :
    Inserts a (l.filter p) (l'.filter p) := by
  obtain ⟨x, y, rfl, rfl⟩ := h
  refine ⟨x.filter p, y.filter p, List.filter_append .., ?_⟩
  rw [List.filter_append, List.filter_cons_of_pos hp]

/-- A new element is put in once where repetitions are left out. -/
theorem distinct [DecidableEq α] (h : Inserts a l l') (ha : a ∉ l) :
    Inserts a (ShaderGraph.distinct l) (ShaderGraph.distinct l') := by
  obtain ⟨x, y, rfl, rfl⟩ := h
  obtain ⟨hx, hy⟩ := not_or.1 (List.mem_append.not.1 ha)
  have hkept : (distinctOn id y).filter (fun b => decide (id b ≠ id a)) = distinctOn id y := by
    refine List.filter_eq_self.2 fun b hb => ?_
    have hne : b ≠ a := fun hba => hy (hba ▸ mem_distinct.1 hb)
    simpa using hne
  refine ⟨ShaderGraph.distinct x, _, distinctOn_append x y, ?_⟩
  rw [ShaderGraph.distinct, distinctOn_append, distinctOn, hkept,
    List.filter_cons_of_pos (by simpa using hx)]
  rfl

theorem erase_eq [DecidableEq α] (h : Inserts a l l') (ha : a ∉ l) : l'.erase a = l := by
  obtain ⟨x, y, rfl, rfl⟩ := h
  rw [List.erase_append_right _ fun hx => ha (List.mem_append_left _ hx), List.erase_cons_head]

end Inserts

end Inserts

theorem idxOf?_append_of_not_mem {a : String} {x y : List String} (h : a ∉ y) :
    (x ++ y).idxOf? a = x.idxOf? a := by
  have hy : y.findIdx? (· == a) = none := List.idxOf?_eq_none_iff.2 h
  rw [List.idxOf?, List.findIdx?_append, hy, Option.map_none, Option.or_none]

/-! ## Degrees that are read -/

namespace Degrees

variable {degrees degrees' : Degrees}

/-- Releasing nodes reads the degrees of these nodes and changes no other. -/
theorem release_congr (targets : String → Prop) {ids : List String} (hids : ∀ id ∈ ids, targets id)
    (h : ∀ id, targets id → degrees'.lookup id = degrees.lookup id) (queue : List String) :
    (release ids degrees' queue).2 = (release ids degrees queue).2 ∧
      ∀ id, targets id →
        (release ids degrees' queue).1.lookup id = (release ids degrees queue).1.lookup id := by
  induction ids generalizing degrees degrees' queue with
  | nil => exact ⟨rfl, h⟩
  | cons id rest ih =>
    obtain ⟨hid, hrest⟩ := List.forall_mem_cons.1 hids
    have hfrees : (lower id degrees').2 = (lower id degrees).2 := by
      rw [Bool.eq_iff_iff, lower_frees, lower_frees, h id hid]
    have hlower : ∀ other, targets other →
        (lower id degrees').1.lookup other = (lower id degrees).1.lookup other := by
      intro other hother
      rw [lookup_lower, lookup_lower, h id hid, h other hother]
    rw [release, release, hfrees]
    exact ih hrest hlower _

end Degrees

/-- The loop reads the degrees of targets only. -/
theorem drain_congr {edges : Edges} {degrees degrees' : Degrees}
    (h : ∀ u v, (u, v) ∈ edges → degrees'.lookup v = degrees.lookup v)
    (placed queue : List String) :
    drain edges degrees' placed queue = drain edges degrees placed queue := by
  revert degrees'
  fun_induction drain edges degrees placed queue
  case case1 degrees placed =>
    intro degrees' _
    rw [drain]
  case case2 degrees placed id queue released ih =>
    intro degrees' h
    have htargets : ∀ v ∈ edges.targetsOf id, ∃ u, (u, v) ∈ edges :=
      fun v hv => ⟨id, Edges.mem_targetsOf.1 hv⟩
    have hsame : ∀ v, (∃ u, (u, v) ∈ edges) → degrees'.lookup v = degrees.lookup v := by
      rintro v ⟨u, huv⟩
      exact h u v huv
    obtain ⟨hqueue, hdegrees⟩ := Degrees.release_congr (fun v => ∃ u, (u, v) ∈ edges) htargets
      hsame queue
    rw [drain, hqueue]
    exact ih fun u v huv => hdegrees v ⟨u, huv⟩

namespace Graph

variable {settings : Settings} {g : Graph} {n : Node} {id : String}

/-- The graph with a node put in behind that many others, or behind all. -/
def withNodeAt (g : Graph) (place : Nat) (n : Node) : Graph :=
  { g with nodes := g.nodes.take place ++ n :: g.nodes.drop place }

/-- No node has the id, and no connection names it. -/
structure IsNew (g : Graph) (id : String) : Prop where
  node : ∀ m ∈ g.nodes, m.id ≠ id
  connection : ∀ c ∈ g.connections, c.sourceId ≠ id ∧ c.targetId ≠ id

theorem isMentioned_iff : g.isMentioned id = true
    ↔ ∃ c ∈ g.connections, c.sourceId = id ∨ c.targetId = id := by
  simp [isMentioned]

namespace IsNew

variable (h : g.IsNew n.id) (place : Nat)

include h

theorem isMentioned_eq_false : g.isMentioned n.id = false := by
  rw [← Bool.not_eq_true, isMentioned_iff]
  rintro ⟨c, hc, hsource | htarget⟩
  · exact (h.connection c hc).1 hsource
  · exact (h.connection c hc).2 htarget

theorem not_mem_nodeIds : n.id ∉ g.nodeIds := by
  intro hmem
  obtain ⟨m, hm, hid⟩ := mem_nodeIds.1 hmem
  exact h.node m hm hid

theorem ne_of_mentioned (hid : g.isMentioned id = true) : id ≠ n.id := by
  rintro rfl
  rw [h.isMentioned_eq_false] at hid
  cases hid

/-! ## The lists of the sort -/

theorem inserts_nodeIds : Inserts n.id g.nodeIds (g.withNodeAt place n).nodeIds := by
  have hnodes : Inserts n g.nodes (g.withNodeAt place n).nodes :=
    ⟨_, _, (List.take_append_drop place g.nodes).symm, rfl⟩
  refine (hnodes.map (·.id)).distinct fun hmem => ?_
  obtain ⟨m, hm, hid⟩ := List.mem_map.1 hmem
  exact h.node m hm hid

theorem hasNode_eq (hid : id ≠ n.id) : (g.withNodeAt place n).hasNode id = g.hasNode id := by
  rw [Bool.eq_iff_iff, hasNode_iff, hasNode_iff, (h.inserts_nodeIds place).mem_iff]
  exact or_iff_right hid

/-- The new node has no edges. -/
theorem edges_eq : (g.withNodeAt place n).edges settings = g.edges settings := by
  have hedge : ∀ c ∈ g.connections,
      (g.withNodeAt place n).isEdge settings c = g.isEdge settings c := by
    intro c hc
    obtain ⟨hsource, htarget⟩ := h.connection c hc
    rw [isEdge, isEdge, h.hasNode_eq place hsource, h.hasNode_eq place htarget]
  exact congrArg (List.map _) (List.filter_congr hedge)

/-- The loop takes out the same nodes. -/
theorem drain_eq : drain ((g.withNodeAt place n).edges settings)
      ((g.withNodeAt place n).firstState settings).degrees []
      ((g.withNodeAt place n).firstState settings).queue
    = drain (g.edges settings) (g.firstState settings).degrees []
      (g.firstState settings).queue := by
  have hqueue : ((g.withNodeAt place n).firstState settings).queue
      = (g.firstState settings).queue := by
    simp only [firstState, h.edges_eq]
    exact congrArg (List.filter _)
      ((h.inserts_nodeIds place).filter_of_neg h.isMentioned_eq_false)
  rw [hqueue, h.edges_eq]
  refine drain_congr (fun u v huv => ?_) _ _
  have hv : v ∈ g.nodeIds := (mem_edges.1 huv).target_mem
  rw [degrees_firstState hv, degrees_firstState ((h.inserts_nodeIds place).mem_iff.2 (.inr hv)),
    h.edges_eq]

/-- **Where the new node comes out**: among the nodes that no connection mentions, which stand
behind all others. -/
theorem placeable_parts (settings : Settings) : ∃ front before after,
    g.placeable settings = front ++ (before ++ after) ∧
    (g.withNodeAt place n).placeable settings = front ++ (before ++ n.id :: after) ∧
    (∀ id ∈ front, g.isMentioned id = true) ∧ ∀ id ∈ before ++ after, g.isMentioned id = false := by
  obtain ⟨before, after, hold, hnew⟩ := (h.inserts_nodeIds place).filter_of_pos
    (p := fun id => !g.isMentioned id) (by simp [h.isMentioned_eq_false])
  refine ⟨drain (g.edges settings) (g.firstState settings).degrees [] (g.firstState settings).queue,
    before, after, ?_, ?_, fun id hid => ?_, fun id hid => ?_⟩
  · rw [← hold]
    rfl
  · rw [← hnew, ← h.drain_eq place]
    rfl
  · obtain ⟨rest, hrun⟩ := DrainState.reaches_drain (g.edges settings)
      (g.firstState settings).degrees [] (g.firstState settings).queue
    have hqueued := (sound_of_reaches hrun).queued_subset id (List.mem_append_left _ hid)
    exact (List.mem_filter.1 hqueued).2
  · rw [← hold] at hid
    simpa using (List.mem_filter.1 hid).2

/-- What connections name is not among the nodes behind, and not the new one. -/
theorem not_mem_behind {before after : List String}
    (hbehind : ∀ id ∈ before ++ after, g.isMentioned id = false) {id : String}
    (hid : g.isMentioned id = true) : id ∉ before ++ after ∧ id ∉ before ++ n.id :: after := by
  have hnot : id ∉ before ++ after := by
    intro hmem
    rw [hbehind id hmem] at hid
    cases hid
  refine ⟨hnot, fun hmem => ?_⟩
  rcases (Inserts.mem_iff ⟨before, after, rfl, rfl⟩).1 hmem with heq | hmem
  · exact h.ne_of_mentioned hid heq
  · exact hnot hmem

theorem inserts_placeable (settings : Settings) :
    Inserts n.id (g.placeable settings) ((g.withNodeAt place n).placeable settings) := by
  obtain ⟨front, before, after, hold, hnew, -, -⟩ := h.placeable_parts place settings
  exact ⟨front ++ before, after, by rw [hold, List.append_assoc],
    by rw [hnew, List.append_assoc]⟩

/-! ## Success and failure -/

/-- The new node can always be placed. -/
theorem forall_placeable_iff (settings : Settings) :
    (∀ id ∈ (g.withNodeAt place n).nodeIds, id ∈ (g.withNodeAt place n).placeable settings)
      ↔ ∀ id ∈ g.nodeIds, id ∈ g.placeable settings := by
  simp only [(h.inserts_nodeIds place).mem_iff, (h.inserts_placeable place settings).mem_iff]
  constructor
  · intro hall id hid
    exact (hall id (.inr hid)).resolve_left fun heq => h.not_mem_nodeIds (heq ▸ hid)
  · rintro hall id (rfl | hid)
    · exact .inl rfl
    · exact .inr (hall id hid)

/-- What no order can hold is the same. -/
theorem remaining_eq :
    (g.withNodeAt place n).nodeIds.filter
        (fun id => !((g.withNodeAt place n).placeable settings).contains id)
      = g.nodeIds.filter fun id => !(g.placeable settings).contains id := by
  have hplaced := h.inserts_placeable place settings
  rw [(h.inserts_nodeIds place).filter_of_neg (by simp [hplaced.mem_iff])]
  refine List.filter_congr fun id hid => ?_
  have hne : id ≠ n.id := fun heq => h.not_mem_nodeIds (heq ▸ hid)
  simp [hplaced.mem_iff, hne]

theorem executionOrder_error_iff {remaining : List String} :
    (g.withNodeAt place n).executionOrder settings = .error remaining
      ↔ g.executionOrder settings = .error remaining := by
  have hfails := not_congr (h.forall_placeable_iff place settings)
  push Not at hfails
  rw [executionOrder_eq_error_iff, executionOrder_eq_error_iff, h.remaining_eq, hfails]

theorem executionOrder_ok {order : List String} (hsort : g.executionOrder settings = .ok order) :
    (g.withNodeAt place n).executionOrder settings
      = .ok ((g.withNodeAt place n).placeable settings) := by
  obtain ⟨hall, -⟩ := executionOrder_eq_ok_iff.1 hsort
  exact executionOrder_eq_ok_iff.2 ⟨(h.forall_placeable_iff place settings).2 hall, rfl⟩

end IsNew

/-- **A node beside the others moves none of them.** For every graph and every node whose id no node
has and no connection names, put in anywhere: sorting fails with and without it for the same
remaining nodes. If there is an order of execution, there is one with the node, too. Every id that a
connection names has the same place in both, if it has one, and in front of the new id, and without
the new id the orders are the same. -/
theorem executionOrder_insertion (settings : Settings) (g : Graph) (place : Nat) (n : Node)
    (hnew : g.IsNew n.id) :
    (∀ remaining, (g.withNodeAt place n).executionOrder settings = .error remaining
      ↔ g.executionOrder settings = .error remaining) ∧
    ∀ order, g.executionOrder settings = .ok order →
      ∃ order', (g.withNodeAt place n).executionOrder settings = .ok order' ∧
        (∀ id, (∃ c ∈ g.connections, c.sourceId = id ∨ c.targetId = id) →
          order'.idxOf? id = order.idxOf? id ∧
          (id ∈ order' → order'.idxOf id < order'.idxOf n.id)) ∧
        n.id ∈ order' ∧ order'.erase n.id = order := by
  refine ⟨fun remaining => hnew.executionOrder_error_iff place, fun order hsort => ?_⟩
  have hinserts := hnew.inserts_placeable place settings
  obtain ⟨-, rfl⟩ := executionOrder_eq_ok_iff.1 hsort
  refine ⟨_, hnew.executionOrder_ok place hsort, fun id hid => ?_, hinserts.mem_iff.2 (.inl rfl),
    hinserts.erase_eq fun hmem => hnew.not_mem_nodeIds (mem_nodeIds_of_mem_placeable hmem)⟩
  obtain ⟨front, before, after, hold, hnext, hfront, hbehind⟩ := hnew.placeable_parts place settings
  have hmentioned := isMentioned_iff.2 hid
  -- the id stands in front of the part that changes, or nowhere
  obtain ⟨hnot, hnot'⟩ := hnew.not_mem_behind hbehind hmentioned
  rw [hold, hnext, idxOf?_append_of_not_mem hnot, idxOf?_append_of_not_mem hnot']
  refine ⟨rfl, fun hmem => ?_⟩
  have hmem : id ∈ front := (List.mem_append.1 hmem).resolve_right hnot'
  have hlast : n.id ∉ front := by
    intro hfirst
    exact hnew.ne_of_mentioned (hfront n.id hfirst) rfl
  rw [List.idxOf_append_of_mem hmem, List.idxOf_append_of_notMem hlast]
  have := List.idxOf_lt_length_of_mem hmem
  omega

/-- A node is put between others into the graph with repeated ids and missing ends. It stands behind
all that connections name, the node that is virtual as a source included. -/
theorem executionOrder_frayed_insertion :
    frayed.IsNew "new" ∧ frayed.executionOrder {} = .ok ["a", "b", "c", "virtual:lamp", "alone"] ∧
    ∃ order', (frayed.withNodeAt 1 (.bare "new" "any")).executionOrder {} = .ok order' ∧
      order'.idxOf? "c" = some 2 ∧ order'.idxOf? "missing" = none ∧
      order'.idxOf "virtual:lamp" < order'.idxOf "new" ∧
      order'.erase "new" = ["a", "b", "c", "virtual:lamp", "alone"] := by
  have hnew : frayed.IsNew (Node.bare "new" "any").id := ⟨by decide, by decide⟩
  have hsort : frayed.executionOrder {} = .ok ["a", "b", "c", "virtual:lamp", "alone"] := by
    decide +kernel
  obtain ⟨-, hok⟩ := executionOrder_insertion {} frayed 1 (.bare "new" "any") hnew
  obtain ⟨order', hsort', hplaces, -, herase⟩ := hok _ hsort
  refine ⟨hnew, hsort, order', hsort', ?_, ?_, ?_, herase⟩
  · exact (hplaces "c" (by decide)).1
  · exact (hplaces "missing" (by decide)).1
  · have hmem : "virtual:lamp" ∈ order'.erase (Node.bare "new" "any").id := by
      rw [herase]
      decide
    exact (hplaces "virtual:lamp" (by decide)).2 (List.mem_of_mem_erase hmem)

end Graph

end ShaderGraph
