import ShaderGraph.Proofs.BakedParameters
import ShaderGraph.Proofs.StableCode
import ShaderGraph.Proofs.Strays
import Mathlib.Data.List.Induction

/-!
# The connection that decides a parameter

A float parameter may be the target of several connections. Those from nodes come before those from
virtual sources: of the former counts the one whose source is executed last, of the latter the
first, and a source that is neither counts for nothing. The choice is made by ranks, with a rank for
a source only if it is executed before the node. In an order of execution all sources are, so none
is passed over for that reason.

`FirstHighest` says what is chosen by ranks, and `Deciding` says it in terms of the connections.
There is only one choice that fits (`Deciding.unique`), and stray connections have no part in it.
-/

namespace ShaderGraph

/-! ## The first of the highest -/

section Highest

variable {α : Type} {rank : α → Option Nat} {items : List α} {a b : α}

/-- The element has a rank, elements before it have lower ones and elements behind it no higher
ones, if they have any. -/
def FirstHighest (rank : α → Option Nat) (items : List α) (a : α) : Prop :=
  ∃ before after r, items = before ++ a :: after ∧ rank a = some r ∧
    (∀ b ∈ before, ∀ s, rank b = some s → s < r) ∧ ∀ b ∈ after, ∀ s, rank b = some s → s ≤ r

/-- What the climb holds when it has passed some elements. -/
theorem foldl_climb_cases (rank : α → Option Nat) (items : List α) :
    (items.foldl (highest?.climb rank) none = none ∧ ∀ b ∈ items, rank b = none) ∨
    ∃ before a after r, items = before ++ a :: after ∧ rank a = some r ∧
      items.foldl (highest?.climb rank) none = some (r, a) ∧
      (∀ b ∈ before, ∀ s, rank b = some s → s < r) ∧
      ∀ b ∈ after, ∀ s, rank b = some s → s ≤ r := by
  -- the last element is the one that the climb looks at last
  induction items using List.reverseRecOn with
  | nil => exact .inl ⟨rfl, by simp⟩
  | append_singleton items x ih =>
    rw [List.foldl_append, List.foldl_cons, List.foldl_nil]
    cases hx : rank x with
    | none =>
      rcases ih with ⟨hbest, hnone⟩ | ⟨before, a, after, r, rfl, ha, hbest, hbefore, hafter⟩
      · refine .inl ⟨by simp only [hbest, highest?.climb, hx], fun b hb => ?_⟩
        rcases List.mem_append.1 hb with hb | hb
        · exact hnone b hb
        · exact List.mem_singleton.1 hb ▸ hx
      · refine .inr ⟨before, a, after ++ [x], r, by simp, ha,
          by simp only [hbest, highest?.climb, hx], hbefore, fun b hb s hs => ?_⟩
        rcases List.mem_append.1 hb with hb | hb
        · exact hafter b hb s hs
        · rw [List.mem_singleton.1 hb, hx] at hs
          cases hs
    | some t =>
      rcases ih with ⟨hbest, hnone⟩ | ⟨before, a, after, r, rfl, ha, hbest, hbefore, hafter⟩
      · refine .inr ⟨items, x, [], t, rfl, hx, by simp only [hbest, highest?.climb, hx],
          fun b hb s hs => ?_, by simp⟩
        rw [hnone b hb] at hs
        cases hs
      · by_cases hlt : r < t
        · refine .inr ⟨before ++ a :: after, x, [], t, rfl, hx, ?_, fun b hb s hs => ?_, by simp⟩
          · simp only [hbest, highest?.climb, hx, if_pos hlt]
          · rcases List.mem_append.1 hb with hb | hb
            · exact Nat.lt_trans (hbefore b hb s hs) hlt
            · rcases List.mem_cons.1 hb with rfl | hb
              · obtain rfl := Option.some.inj (ha.symm.trans hs)
                exact hlt
              · exact Nat.lt_of_le_of_lt (hafter b hb s hs) hlt
        · refine .inr ⟨before, a, after ++ [x], r, by simp, ha, ?_, hbefore, fun b hb s hs => ?_⟩
          · simp only [hbest, highest?.climb, hx, if_neg hlt]
          · rcases List.mem_append.1 hb with hb | hb
            · exact hafter b hb s hs
            · rw [List.mem_singleton.1 hb] at hs
              obtain rfl := Option.some.inj (hx.symm.trans hs)
              exact Nat.le_of_not_lt hlt

theorem highest?_eq_none_iff : highest? rank items = none ↔ ∀ b ∈ items, rank b = none := by
  rw [highest?, Option.map_eq_none_iff]
  rcases foldl_climb_cases rank items with ⟨hbest, hnone⟩ | ⟨before, a, after, r, rfl, ha, hbest, -⟩
  · exact iff_of_true hbest hnone
  · refine iff_of_false (by simp [hbest]) fun hnone => ?_
    have hna := hnone a (by simp)
    rw [ha] at hna
    cases hna

theorem firstHighest_of_highest? (h : highest? rank items = some a) :
    FirstHighest rank items a := by
  obtain ⟨⟨r, b⟩, hb, rfl⟩ := Option.map_eq_some_iff.1 h
  rcases foldl_climb_cases rank items with
    ⟨hbest, -⟩ | ⟨before, c, after, s, hitems, hc, hbest, hbefore, hafter⟩
  · rw [hbest] at hb
    cases hb
  · obtain ⟨rfl, rfl⟩ : s = r ∧ c = b := by simpa [hbest] using hb
    exact ⟨before, after, s, hitems, hc, hbefore, hafter⟩

/-- The element is the first of those with the greatest number. -/
def FirstGreatest (number : α → Nat) (items : List α) (a : α) : Prop :=
  ∃ before after, items = before ++ a :: after ∧ (∀ b ∈ before, number b < number a) ∧
    ∀ b ∈ after, number b ≤ number a

/-- Of two that are first among the greatest, neither stands before the other. -/
theorem FirstGreatest.unique {number : α → Nat} (ha : FirstGreatest number items a)
    (hb : FirstGreatest number items b) : a = b := by
  have hnot : ∀ {x y : α} {beforeX afterX beforeY afterY mid : List α},
      (∀ z ∈ afterX, number z ≤ number x) → (∀ z ∈ beforeY, number z < number y) →
      beforeY = beforeX ++ mid → x :: afterX = mid ++ y :: afterY → x = y := by
    intro x y beforeX afterX beforeY afterY mid hafter hbefore hfront hrest
    cases mid with
    | nil => exact (List.cons.inj hrest).1
    | cons z mid =>
      obtain ⟨rfl, rfl⟩ := List.cons.inj hrest
      have h1 : number x < number y := hbefore x (by simp [hfront])
      have h2 : number y ≤ number x := hafter y (by simp)
      omega
  obtain ⟨before, after, rfl, hbefore, hafter⟩ := ha
  obtain ⟨before', after', heq, hbefore', hafter'⟩ := hb
  rcases List.append_eq_append_iff.1 heq with ⟨mid, hfront, hrest⟩ | ⟨mid, hfront, hrest⟩
  · exact hnot hafter hbefore' hfront hrest
  · exact (hnot hafter' hbefore hfront hrest).symm

end Highest

theorem lastIndex?_eq_idxOf {a : String} {items : List String} (h : items.Nodup) (ha : a ∈ items) :
    lastIndex? a items = some (items.idxOf a) := by
  induction items with
  | nil => cases ha
  | cons b rest ih =>
    obtain ⟨hb, hrest⟩ := List.nodup_cons.1 h
    rw [lastIndex?, List.idxOf_cons]
    by_cases heq : b = a
    · subst heq
      have hnone : ¬ (lastIndex? b rest).isSome = true := isSome_lastIndex?_iff.not.2 hb
      rw [Option.not_isSome_iff_eq_none.1 hnone]
      simp
    · have hmem : a ∈ rest := (List.mem_cons.1 ha).resolve_left (Ne.symm heq)
      rw [ih hrest hmem, beq_false_of_ne heq]
      rfl

namespace Plan

variable {catalog : Catalog} {settings : Settings} {g g' : Graph} {order : List String}
  {plan : Plan} {n : Node} {name : String} {param : Param} {c : Connection}

/-! ## What decides -/

/-- Which connection decides a parameter, if one does. -/
inductive Deciding (plan : Plan) (n : Node) (name : String) : Option Connection → Prop where
  /-- Of the connections from nodes, the first of those whose source is executed last. -/
  | latest {c : Connection}
      (h : FirstGreatest (fun d => plan.order.idxOf d.sourceId)
        ((plan.graph.paramConnections n.id name).filter plan.readsNode) c) :
      Deciding plan n name (some c)
  /-- Without connections from nodes, the first from a virtual source. -/
  | virtual {c : Connection}
      (hnodes : ∀ d ∈ plan.graph.paramConnections n.id name, plan.readsNode d = false)
      (hfirst : (plan.graph.paramConnections n.id name).find? (fun d => plan.isVirtual d.sourceId)
        = some c) :
      Deciding plan n name (some c)
  /-- Without either, none. -/
  | none
      (hnodes : ∀ d ∈ plan.graph.paramConnections n.id name, plan.readsNode d = false)
      (hvirtual : ∀ d ∈ plan.graph.paramConnections n.id name,
        plan.isVirtual d.sourceId = false) :
      Deciding plan n name none

/-- The value of a parameter that a connection decides, or none. -/
def decidedBy (plan : Plan) (n : Node) (name : String) (param : Param) :
    Option Connection → Warned Resolved
  | some c => do
    let connected ← plan.connectedParam n c
    return ⟨(combineOf n name param).join (plan.settled n name param).expr connected, .connection⟩
  | none => pure (plan.settled n name param)

/-- The first of the greatest among connections from nodes is one of them. -/
theorem exists_readsNode_of_firstGreatest {number : Connection → Nat}
    (h : FirstGreatest number ((plan.graph.paramConnections n.id name).filter plan.readsNode) c) :
    c ∈ plan.graph.paramConnections n.id name ∧ plan.readsNode c = true := by
  obtain ⟨before, after, heq, -, -⟩ := h
  exact List.mem_filter.1 (heq ▸ List.mem_append_right before List.mem_cons_self)

/-- **Only one choice fits.** -/
theorem Deciding.unique {used used' : Option Connection} (h : plan.Deciding n name used)
    (h' : plan.Deciding n name used') : used = used' := by
  have hreads : ∀ {c : Connection} {number : Connection → Nat},
      FirstGreatest number ((plan.graph.paramConnections n.id name).filter plan.readsNode) c →
      ¬ ∀ d ∈ plan.graph.paramConnections n.id name, plan.readsNode d = false := by
    intro c number hc hnodes
    obtain ⟨hmem, hread⟩ := exists_readsNode_of_firstGreatest hc
    rw [hnodes c hmem] at hread
    cases hread
  have hfound : ∀ {c : Connection},
      (plan.graph.paramConnections n.id name).find? (fun d => plan.isVirtual d.sourceId) = some c →
      ¬ ∀ d ∈ plan.graph.paramConnections n.id name, plan.isVirtual d.sourceId = false := by
    intro c hc hvirtual
    have hread := List.find?_some hc
    rw [hvirtual c (List.mem_of_find?_eq_some hc)] at hread
    cases hread
  cases h with
  | latest hc =>
    cases h' with
    | latest hc' => rw [hc.unique hc']
    | virtual hnodes => exact absurd hnodes (hreads hc)
    | none hnodes => exact absurd hnodes (hreads hc)
  | virtual hnodes hc =>
    cases h' with
    | latest hc' => exact absurd hnodes (hreads hc')
    | virtual _ hc' => exact hc.symm.trans hc'
    | none _ hvirtual => exact absurd hvirtual (hfound hc)
  | none hnodes hvirtual =>
    cases h' with
    | latest hc' => exact absurd hnodes (hreads hc')
    | virtual _ hc' => exact absurd hvirtual (hfound hc')
    | none => rfl

/-! ## Ranks in an order of execution -/

theorem rank?_of_isVirtual (hvirtual : plan.isVirtual c.sourceId = true) (consumer : Nat) :
    plan.rank? consumer c = some 0 := by
  rw [rank?, if_pos hvirtual]

section Ranks

variable (hsort : plan.graph.executionOrder plan.settings = .ok plan.order)

include hsort

theorem index?_of_mem {id : String} (h : id ∈ plan.graph.nodeIds) :
    plan.index? id = some (plan.order.idxOf id) := by
  obtain ⟨-, horder⟩ := Graph.executionOrder_eq_ok_iff.1 hsort
  refine lastIndex?_eq_idxOf ?_ ((Graph.mem_executionOrder hsort).2 h)
  rw [horder]
  exact Graph.nodup_placeable _ _

theorem index?_of_not_mem {id : String} (h : id ∉ plan.graph.nodeIds) : plan.index? id = none := by
  rw [← Graph.mem_executionOrder hsort, ← isSome_lastIndex?_iff] at h
  exact Option.not_isSome_iff_eq_none.1 h

variable (hn : n ∈ plan.graph.nodes) (hc : c ∈ plan.graph.paramConnections n.id name)

include hn hc

omit hsort in
/-- A connection from a node is an edge. -/
theorem feeds_of_readsNode (hread : plan.readsNode c = true) :
    plan.graph.Feeds plan.settings c.sourceId n.id := by
  obtain ⟨hmem, hends⟩ := List.mem_filter.1 hc
  obtain ⟨hvirtual, hnode⟩ := Bool.and_eq_true_iff.1 hread
  rw [Bool.not_eq_true'] at hvirtual
  refine ⟨hvirtual, ?_, ⟨n, hn, rfl⟩, c, hmem, rfl, targetId_of_endsAt hends⟩
  exact Graph.mem_nodeIds.1 (Graph.isSome_node?_iff.1 hnode)

/-- **The source of a connection from a node is executed before its target.** -/
theorem idxOf_source_lt (hread : plan.readsNode c = true) :
    plan.order.idxOf c.sourceId < plan.order.idxOf n.id := by
  have hfeeds := feeds_of_readsNode hn hc hread
  obtain ⟨hall, horder⟩ := Graph.executionOrder_eq_ok_iff.1 hsort
  rw [horder]
  exact (Graph.ordered_placeable _ _).idxOf_lt (Graph.mem_sourcesOf_edges.2 hfeeds)
    (hall _ hfeeds.target_mem)

theorem rank?_of_readsNode (hread : plan.readsNode c = true) :
    plan.rank? (plan.order.idxOf n.id) c = some (plan.order.idxOf c.sourceId + 1) := by
  have hsource := (feeds_of_readsNode hn hc hread).source_mem
  have hreal : plan.isVirtual c.sourceId = false := by
    simpa using (Bool.and_eq_true_iff.1 hread).1
  rw [rank?, hreal, index?_of_mem hsort hsource]
  simp only [Bool.false_eq_true, if_false, if_pos (idxOf_source_lt hsort hn hc hread)]

omit hn hc in
theorem rank?_of_stray (hread : plan.readsNode c = false)
    (hvirtual : plan.isVirtual c.sourceId = false) (consumer : Nat) :
    plan.rank? consumer c = none := by
  have hnode : c.sourceId ∉ plan.graph.nodeIds := by
    rw [← Graph.isSome_node?_iff]
    simpa [readsNode, hvirtual] using hread
  rw [rank?, hvirtual, index?_of_not_mem hsort hnode]
  rfl

omit hc in
/-- **The choice by ranks is the one that is described.** -/
theorem deciding_winner? (name : String) : plan.Deciding n name (plan.winner? n name) := by
  have hindex := index?_of_mem hsort (Graph.mem_nodeIds.2 ⟨n, hn, rfl⟩)
  have hwinner : plan.winner? n name
      = highest? (plan.rank? (plan.order.idxOf n.id)) (plan.graph.paramConnections n.id name) := by
    rw [winner?, hindex]
    rfl
  have hranked : ∀ d ∈ plan.graph.paramConnections n.id name,
      plan.rank? (plan.order.idxOf n.id) d = none →
      plan.readsNode d = false ∧ plan.isVirtual d.sourceId = false := by
    intro d hd hrank
    constructor
    · rw [← Bool.not_eq_true]
      intro hread
      rw [rank?_of_readsNode hsort hn hd hread] at hrank
      cases hrank
    · rw [← Bool.not_eq_true]
      intro hvirtual
      rw [rank?_of_isVirtual hvirtual] at hrank
      cases hrank
  rw [hwinner]
  cases hbest : highest? (plan.rank? (plan.order.idxOf n.id))
      (plan.graph.paramConnections n.id name) with
  | none =>
    have hnone := highest?_eq_none_iff.1 hbest
    exact .none (fun d hd => (hranked d hd (hnone d hd)).1)
      fun d hd => (hranked d hd (hnone d hd)).2
  | some c =>
    obtain ⟨before, after, r, heq, hrank, hbefore, hafter⟩ := firstHighest_of_highest? hbest
    have hc : c ∈ plan.graph.paramConnections n.id name := by simp [heq]
    have hmemBefore : ∀ d ∈ before, d ∈ plan.graph.paramConnections n.id name :=
      fun d hd => heq ▸ List.mem_append_left _ hd
    have hmemAfter : ∀ d ∈ after, d ∈ plan.graph.paramConnections n.id name :=
      fun d hd => heq ▸ List.mem_append_right _ (List.mem_cons_of_mem _ hd)
    cases hread : plan.readsNode c with
    | true =>
      rw [rank?_of_readsNode hsort hn hc hread] at hrank
      obtain rfl := Option.some.inj hrank
      refine .latest ⟨before.filter plan.readsNode, after.filter plan.readsNode, ?_, ?_, ?_⟩
      · rw [heq, List.filter_append, List.filter_cons_of_pos hread]
      · intro d hd
        obtain ⟨hd, hreadD⟩ := List.mem_filter.1 hd
        exact Nat.succ_lt_succ_iff.1
          (hbefore d hd _ (rank?_of_readsNode hsort hn (hmemBefore d hd) hreadD))
      · intro d hd
        obtain ⟨hd, hreadD⟩ := List.mem_filter.1 hd
        exact Nat.succ_le_succ_iff.1
          (hafter d hd _ (rank?_of_readsNode hsort hn (hmemAfter d hd) hreadD))
    | false =>
      -- the best rank is that of a virtual source, so no node has a rank
      have hvirtual : plan.isVirtual c.sourceId = true := by
        by_contra hreal
        rw [rank?_of_stray hsort hread (by simpa using hreal)] at hrank
        cases hrank
      rw [rank?_of_isVirtual hvirtual] at hrank
      obtain rfl := Option.some.inj hrank
      refine .virtual (fun d hd => ?_) ?_
      · rw [← Bool.not_eq_true]
        intro hreadD
        have hrankD := rank?_of_readsNode hsort hn hd hreadD
        rw [heq] at hd
        rcases List.mem_append.1 hd with hd | hd
        · exact absurd (hbefore d hd _ hrankD) (Nat.not_lt_zero _)
        · rcases List.mem_cons.1 hd with rfl | hd
          · rw [hread] at hreadD
            cases hreadD
          · exact absurd (hafter d hd _ hrankD) (Nat.not_succ_le_zero _)
      · rw [heq, List.find?_append, List.find?_eq_none.2, Option.none_or]
        · exact List.find?_cons_of_pos hvirtual
        · intro d hd hvirtualD
          exact absurd (hbefore d hd 0 (rank?_of_isVirtual hvirtualD _)) (Nat.not_lt_zero 0)

end Ranks

/-- Without automation, the deciding connection gives a float parameter its value. -/
theorem resolve_eq_decidedBy (hkind : param.kind = .float)
    (hlane : plan.graph.lane? n.id name = none) :
    plan.resolve n name param = plan.decidedBy n name param (plan.winner? n name) := by
  have hautomation : plan.automation? n name = none := by rw [automation?, hlane]; rfl
  simp only [resolve, hkind, resolveFloat, hautomation]
  cases plan.winner? n name <;> rfl

end Plan

/-! ## Stray connections -/

namespace Graph.SameButStrays

open Plan (compiling)

variable {catalog : Catalog} {settings : Settings} {g g' : Graph} {order order' : List String}
  {n : Node} {name : String} {c : Connection} (h : g.SameButStrays settings g')

include h

theorem node?_eq (id : String) : g'.node? id = g.node? id := by
  rw [node?, node?, h.nodes]

theorem uniforms_eq (catalog : Catalog) :
    UniformTable.ofGraph catalog settings g' = UniformTable.ofGraph catalog settings g := by
  have hvirtuals : g'.connections.filter (fun c => settings.isVirtual c.sourceId)
      = g.connections.filter fun c => settings.isVirtual c.sourceId :=
    h.filter_connections fun c hc => by rw [hasSource, hc, Bool.true_or]
  rw [UniformTable.ofGraph, UniformTable.ofGraph, h.nodes, hvirtuals]

theorem readsNode_eq (c : Connection) : (compiling catalog settings g' order').readsNode c
    = (compiling catalog settings g order).readsNode c := by
  show (!settings.isVirtual c.sourceId && (g'.node? c.sourceId).isSome)
    = (!settings.isVirtual c.sourceId && (g.node? c.sourceId).isSome)
  rw [h.node?_eq]

/-- The connections into a parameter that are not stray are the same. -/
theorem filter_paramConnections {p : Connection → Bool}
    (hp : ∀ c, p c = true → g.hasSource settings c = true) (id param : String) :
    (g'.paramConnections id param).filter p = (g.paramConnections id param).filter p := by
  rw [paramConnections, paramConnections, List.filter_filter, List.filter_filter]
  exact h.filter_connections fun c hc => hp c (Bool.and_eq_true_iff.1 hc).1

omit h in
theorem hasSource_of_readsNode (hread : (compiling catalog settings g order).readsNode c = true) :
    g.hasSource settings c = true := by
  have hnode : (g.node? c.sourceId).isSome = true := (Bool.and_eq_true_iff.1 hread).2
  rw [hasSource, hasNode_iff.2 (isSome_node?_iff.1 hnode), Bool.or_true]

/-- **Stray connections have no part in the choice.** -/
theorem deciding (hsort : g.executionOrder settings = .ok order) (hn : n ∈ g.nodes)
    {used : Option Connection} (hused : (compiling catalog settings g order).Deciding n name used) :
    (compiling catalog settings g' (g'.placeable settings)).Deciding n name used := by
  have hreads : (compiling catalog settings g' (g'.placeable settings)).readsNode
      = (compiling catalog settings g order).readsNode := funext h.readsNode_eq
  have hfilter : (g'.paramConnections n.id name).filter
        (compiling catalog settings g order).readsNode
      = (g.paramConnections n.id name).filter (compiling catalog settings g order).readsNode :=
    h.filter_paramConnections (fun c => hasSource_of_readsNode) n.id name
  have hvirtuals : (g'.paramConnections n.id name).filter (fun d => settings.isVirtual d.sourceId)
      = (g.paramConnections n.id name).filter fun d => settings.isVirtual d.sourceId :=
    h.filter_paramConnections (fun c hc => by rw [hasSource, hc, Bool.true_or]) n.id name
  have hnodes : (∀ d ∈ g.paramConnections n.id name,
        (compiling catalog settings g order).readsNode d = false) →
      ∀ d ∈ g'.paramConnections n.id name,
        (compiling catalog settings g' (g'.placeable settings)).readsNode d = false := by
    intro hnone d hd
    rw [hreads, ← Bool.not_eq_true]
    intro hread
    have hmem := List.mem_filter.2 ⟨hd, hread⟩
    rw [hfilter] at hmem
    rw [hnone d (List.mem_filter.1 hmem).1] at hread
    cases hread
  cases hused with
  | @latest c hfirst =>
    obtain ⟨-, hplaces⟩ := h.executionOrder hsort
    obtain ⟨before, after, heq, hbefore, hafter⟩ := hfirst
    have hedge : ∀ d ∈ before ++ c :: after, g.hasEdge settings d.sourceId = true := by
      intro d hd
      obtain ⟨hd, hread⟩ := List.mem_filter.1 (heq ▸ hd)
      exact (hasEdge_ends (mem_edges.2 (Plan.feeds_of_readsNode hn hd hread))).1
    have hedgeC := hedge c (by simp)
    refine .latest ⟨before, after, ?_, fun d hd => ?_, fun d hd => ?_⟩
    · rw [hreads]
      exact hfilter.trans heq
    · exact (hplaces _ _ (hedge d (by simp [hd])) hedgeC).2 (hbefore d hd)
    · refine Nat.le_of_not_lt fun hlt => ?_
      exact absurd ((hplaces _ _ hedgeC (hedge d (by simp [hd]))).1 hlt)
        (Nat.not_lt_of_le (hafter d hd))
  | @virtual c hnone hfirst =>
    refine .virtual (hnodes hnone) ?_
    rw [← List.head?_filter] at hfirst ⊢
    exact (congrArg List.head? hvirtuals).trans hfirst
  | none hnone hreal =>
    refine .none (hnodes hnone) fun d hd => ?_
    rw [← Bool.not_eq_true]
    intro hvirtual
    have hmem : d ∈ (g'.paramConnections n.id name).filter fun d =>
        settings.isVirtual d.sourceId := List.mem_filter.2 ⟨hd, hvirtual⟩
    rw [hvirtuals] at hmem
    exact absurd hvirtual (Bool.not_eq_true _ ▸ hreal d (List.mem_filter.1 hmem).1)

theorem mem_connections_iff (hsource : g.hasSource settings c = true) :
    c ∈ g'.connections ↔ c ∈ g.connections := by
  have hmem : ∀ connections : List Connection,
      c ∈ connections.filter (g.hasSource settings) ↔ c ∈ connections := by
    intro connections
    rw [List.mem_filter, hsource, and_iff_left rfl]
  rw [← hmem, h.connections, hmem]

/-- What a connection brings that is not stray is the same. -/
theorem connectedParam_eq (hc : c ∈ g.connections) (hsource : g.hasSource settings c = true) :
    (compiling catalog settings g' order').connectedParam n c
      = (compiling catalog settings g order).connectedParam n c := by
  have huniforms : (compiling catalog settings g' order').uniforms
      = (compiling catalog settings g order).uniforms := h.uniforms_eq catalog
  have htype : (compiling catalog settings g' order').outputType? c.sourceId c.sourcePort
      = (compiling catalog settings g order).outputType? c.sourceId c.sourcePort := by
    have hnode := h.node?_eq c.sourceId
    exact congrArg (fun m : Option Node => (m.bind fun n => (catalog.find? n.type).map
      (TypedNode.mk n)).bind fun n => (n.type.output? c.sourcePort).map (·.type)) hnode
  cases hvirtual : settings.isVirtual c.sourceId with
  | true =>
    have hboth : ∀ a order, (compiling catalog settings a order).isVirtual c.sourceId = true :=
      fun _ _ => hvirtual
    rw [Plan.connectedParam, Plan.connectedParam, if_pos (hboth g' order'),
      if_pos (hboth g order), huniforms]
  | false =>
    have hnode : c.sourceId ∈ g.nodeIds := by
      rw [← hasNode_iff]
      simpa [hasSource, hvirtual] using hsource
    have hboth : ∀ a order, ¬ (compiling catalog settings a order).isVirtual c.sourceId = true :=
      fun _ _ hv => Bool.false_ne_true (hvirtual.symm.trans hv)
    have hdeclares := Plan.declares_compiling catalog g order hc hvirtual hnode
    have hdeclares' := Plan.declares_compiling catalog g' order'
      ((h.mem_connections_iff hsource).2 hc) hvirtual (h.nodeIds_eq ▸ hnode)
    rw [Plan.connectedParam, Plan.connectedParam, if_neg (hboth g' order'),
      if_neg (hboth g order)]
    simp only [hdeclares, hdeclares', htype, if_true]

/-- A deciding connection is not stray. -/
theorem decidedBy_eq {used : Option Connection} {param : Param}
    (hused : (compiling catalog settings g order).Deciding n name used) :
    (compiling catalog settings g' order').decidedBy n name param used
      = (compiling catalog settings g order).decidedBy n name param used := by
  have hsettled : (compiling catalog settings g' order').settled n name param
      = (compiling catalog settings g order).settled n name param := by
    have huniforms : (compiling catalog settings g' order').uniforms
        = (compiling catalog settings g order).uniforms := h.uniforms_eq catalog
    rw [Plan.settled, Plan.settled, huniforms]
  have hsome : ∀ c ∈ g.paramConnections n.id name, g.hasSource settings c = true →
      (compiling catalog settings g' order').decidedBy n name param (some c)
        = (compiling catalog settings g order).decidedBy n name param (some c) := by
    intro c hc hsource
    have hconnected : (compiling catalog settings g' order').connectedParam n c
        = (compiling catalog settings g order).connectedParam n c :=
      h.connectedParam_eq (List.mem_filter.1 hc).1 hsource
    rw [Plan.decidedBy, Plan.decidedBy, hconnected, hsettled]
  cases hused with
  | latest hfirst =>
    obtain ⟨hc, hread⟩ := Plan.exists_readsNode_of_firstGreatest hfirst
    exact hsome _ hc (hasSource_of_readsNode hread)
  | @virtual c _ hfirst =>
    have hvirtual : settings.isVirtual c.sourceId = true :=
      (List.find?_eq_some_iff_append.1 hfirst).1
    exact hsome c (List.mem_of_find?_eq_some hfirst) (by rw [hasSource, hvirtual, Bool.true_or])
  | none => exact congrArg pure hsettled

end Graph.SameButStrays

namespace Graph

/-- The connections between lamps, and into the gain of a dimmer from a virtual source and from both
lamps, from the later one twice. -/
def tidyConnections : List Connection :=
  [.between "0" ("a", "light") "b" (.port "in"),
    .between "1" ("virtual:lfo", "value") "d" (.parameter "gain"),
    .between "2" ("b", "light") "d" (.parameter "gain"),
    .between "3" ("a", "light") "d" (.parameter "gain"),
    .between "4" ("b", "glow") "d" (.parameter "gain")]

/-- Two lamps, a dimmer and a node beside them, with some connections. -/
def lamps (connections : List Connection) : Graph where
  id := "lamps"
  name := "lamps"
  version := formatVersion
  nodes := [.bare "e" "dimmer", .bare "a" "lamp", .bare "b" "lamp", .bare "d" "dimmer"]
  connections
  lanes := []

/-- Stray connections in front, one into the same gain and one that mentions the node beside. -/
def strayConnections : List Connection :=
  [.between "5" ("ghost", "light") "d" (.parameter "gain"),
    .between "6" ("ghost", "light") "e" (.parameter "gain")]

end Graph

end ShaderGraph
