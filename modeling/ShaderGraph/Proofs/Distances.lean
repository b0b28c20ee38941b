import ShaderGraph.Proofs.Affected
import Mathlib.Data.List.Nodup
import Mathlib.Order.Lattice.Nat

/-!
# The distance of a change

The nodes that a change affects are found nearest first. `PathTo` counts the steps of a path from
the start, and the distance of a node is the least count.

`Layered` is what every state of the search satisfies beyond `Spread`: nothing is listed twice, what
is visited or queued stands in order of distance, and nothing in the queue is more than one step
further away than what stands before it. A node that is not found yet has a nearer one in the queue
(`Spread.exists_nearer`), so what the first of the queue leads to is exactly one step further away
than that one, and belongs at the end of the queue.
-/

namespace ShaderGraph

open Relation

section Paths

variable {related : String → String → Prop} {start : List String} {n : Nat} {id u v : String}

/-- A path of so many steps leads from one of the nodes to the node. -/
inductive PathTo (related : String → String → Prop) (start : List String) :
    Nat → String → Prop where
  | start {id : String} (h : id ∈ start) : PathTo related start 0 id
  | step {n : Nat} {u v : String} (h : PathTo related start n u) (huv : related u v) :
      PathTo related start (n + 1) v

/-- The number of steps on a shortest path from one of the nodes to the node. -/
noncomputable def distanceFrom (related : String → String → Prop) (start : List String)
    (id : String) : Nat :=
  sInf {n | PathTo related start n id}

theorem PathTo.distanceFrom_le (h : PathTo related start n id) :
    distanceFrom related start id ≤ n := Nat.sInf_le h

/-- What is reached has a shortest path. -/
theorem exists_shortest (h : ∃ s ∈ start, ReflTransGen related s id) :
    PathTo related start (distanceFrom related start id) id := by
  obtain ⟨s, hs, hpath⟩ := h
  have hsome : ∃ n, PathTo related start n id := by
    induction hpath with
    | refl => exact ⟨0, .start hs⟩
    | tail _ huv ih =>
      obtain ⟨n, hn⟩ := ih
      exact ⟨n + 1, hn.step huv⟩
  exact Nat.sInf_mem hsome

theorem distanceFrom_eq_zero (h : id ∈ start) : distanceFrom related start id = 0 :=
  Nat.le_zero.1 (PathTo.start h).distanceFrom_le

end Paths

variable {edges : Edges} {start unseen visited queue ids : List String} {id : String}

/-! ## One step of the search -/

/-- The targets that are found for the first time join the end of the queue. -/
theorem exists_discover_eq (ids queue unseen : List String) :
    ∃ fresh, (discover ids queue unseen).1 = queue ++ fresh ∧
      (∀ id ∈ fresh, id ∈ ids ∧ id ∈ unseen) ∧
      List.Perm (fresh ++ (discover ids queue unseen).2) unseen := by
  induction ids generalizing queue unseen with
  | nil => exact ⟨[], (List.append_nil _).symm, by simp, .refl _⟩
  | cons first rest ih =>
    rw [discover]
    split
    · rename_i hfirst
      obtain ⟨fresh, hqueue, hfresh, hperm⟩ := ih (queue ++ [first]) (unseen.erase first)
      refine ⟨first :: fresh, by rw [hqueue, List.append_assoc, List.singleton_append], ?_, ?_⟩
      · refine List.forall_mem_cons.2 ⟨⟨List.mem_cons_self, hfirst⟩, fun id hid => ?_⟩
        obtain ⟨hrest, herase⟩ := hfresh id hid
        exact ⟨List.mem_cons_of_mem _ hrest, List.mem_of_mem_erase herase⟩
      · exact (hperm.cons first).trans (List.perm_cons_erase hfirst).symm
    · obtain ⟨fresh, hqueue, hfresh, hperm⟩ := ih queue unseen
      exact ⟨fresh, hqueue, fun id hid => (hfresh id hid).imp_left (List.mem_cons_of_mem _), hperm⟩

/-- **A node that is not found yet has a nearer one in the queue.** -/
theorem Spread.exists_nearer (h : Spread edges start unseen visited queue) {n : Nat}
    (hpath : PathTo (fun u v => (u, v) ∈ edges) start n id) (hid : ¬ (id ∈ visited ∨ id ∈ queue)) :
    ∃ u ∈ queue, ∃ m < n, PathTo (fun u v => (u, v) ∈ edges) start m u := by
  induction hpath with
  | start hstart => exact absurd (h.begun _ hstart) hid
  | @step n u v hu huv ih =>
    by_cases hfound : u ∈ visited ∨ u ∈ queue
    · rcases hfound with hvisited | hqueued
      · exact absurd (h.closed u hvisited v huv) hid
      · exact ⟨u, hqueued, n, Nat.lt_succ_self n, hu⟩
    · obtain ⟨w, hw, m, hm, hpath⟩ := ih hfound
      exact ⟨w, hw, m, Nat.lt_succ_of_lt hm, hpath⟩

/-! ## The order of distance -/

/-- How many edges lead from the start to a node. -/
noncomputable abbrev Edges.distance (edges : Edges) (start : List String) (id : String) : Nat :=
  distanceFrom (fun u v => (u, v) ∈ edges) start id

/-- A state of the search that lists what is found in order of distance. -/
structure Layered (edges : Edges) (start unseen visited queue : List String) : Prop
    extends Spread edges start unseen visited queue where
  nodup : (visited ++ queue ++ unseen).Nodup
  sorted : (visited ++ queue).Pairwise fun u v => edges.distance start u ≤ edges.distance start v
  near : queue.Pairwise fun u v => edges.distance start v ≤ edges.distance start u + 1

namespace Layered

/-- What the first of the queue leads to for the first time is one edge further away. -/
theorem distance_fresh (h : Layered edges start unseen visited (id :: queue)) {v : String}
    (hedge : (id, v) ∈ edges) (hunseen : v ∈ unseen) :
    edges.distance start v = edges.distance start id + 1 := by
  have hreached := h.reached id (.inr List.mem_cons_self)
  have hle : edges.distance start v ≤ edges.distance start id + 1 :=
    ((exists_shortest hreached).step hedge).distanceFrom_le
  have hnot : ¬ (v ∈ visited ∨ v ∈ id :: queue) := by
    rw [← List.mem_append]
    exact fun hfound => (List.nodup_append.1 h.nodup).2.2 v hfound v hunseen rfl
  obtain ⟨s, hs, hpath⟩ := hreached
  have hshortest : PathTo (fun u v => (u, v) ∈ edges) start (edges.distance start v) v :=
    exists_shortest ⟨s, hs, hpath.tail hedge⟩
  -- a path to `v` passes through the queue, where nothing is nearer than the first
  obtain ⟨u, hu, m, hm, hpath⟩ := h.exists_nearer hshortest hnot
  have hfirst : edges.distance start id ≤ edges.distance start u := by
    rcases List.mem_cons.1 hu with rfl | hu
    · exact Nat.le_refl _
    · exact (List.pairwise_cons.1 (List.pairwise_append.1 h.sorted).2.1).1 u hu
  have hu : edges.distance start u ≤ m := hpath.distanceFrom_le
  omega

/-- **Visiting a node keeps the order of distance.** -/
theorem step (h : Layered edges start unseen visited (id :: queue)) :
    Layered edges start (discover (edges.targetsOf id) queue unseen).2 (visited ++ [id])
      (discover (edges.targetsOf id) queue unseen).1 := by
  obtain ⟨fresh, hqueue, hfresh, hperm⟩ := exists_discover_eq (edges.targetsOf id) queue unseen
  have hdistance : ∀ v ∈ fresh, edges.distance start v = edges.distance start id + 1 :=
    fun v hv => h.distance_fresh (Edges.mem_targetsOf.1 (hfresh v hv).1) (hfresh v hv).2
  obtain ⟨hvisited, hrest, hbetween⟩ := List.pairwise_append.1 h.sorted
  obtain ⟨hfirst, -⟩ := List.pairwise_cons.1 hrest
  obtain ⟨hnear, hqueued⟩ := List.pairwise_cons.1 h.near
  refine ⟨h.toSpread.step, ?_, ?_, ?_⟩
  · have hlist : visited ++ [id] ++ (queue ++ fresh)
          ++ (discover (edges.targetsOf id) queue unseen).2
        = visited ++ id :: queue ++ (fresh ++ (discover (edges.targetsOf id) queue unseen).2) := by
      simp only [List.append_assoc, List.cons_append, List.nil_append]
    rw [hqueue, hlist]
    exact ((List.Perm.refl _).append hperm).nodup_iff.2 h.nodup
  · have hlist : visited ++ [id] ++ (queue ++ fresh) = visited ++ id :: queue ++ fresh := by
      simp only [List.append_assoc, List.cons_append, List.nil_append]
    rw [hqueue, hlist]
    refine List.pairwise_append.2 ⟨h.sorted, ?_, fun u hu v hv => ?_⟩
    · exact List.pairwise_of_forall_mem_list fun u hu v hv => by
        rw [hdistance u hu, hdistance v hv]
    · rw [hdistance v hv]
      rcases List.mem_append.1 hu with hu | hu
      · exact Nat.le_succ_of_le (hbetween u hu id List.mem_cons_self)
      · rcases List.mem_cons.1 hu with rfl | hu
        · exact Nat.le_succ _
        · exact hnear u hu
  · rw [hqueue]
    refine List.pairwise_append.2 ⟨hqueued, ?_, fun u hu v hv => ?_⟩
    · exact List.pairwise_of_forall_mem_list fun u hu v hv => by
        rw [hdistance u hu, hdistance v hv]
        exact Nat.le_succ _
    · rw [hdistance v hv]
      exact Nat.succ_le_succ (hfirst u hu)

/-- **The search lists what it finds in order of distance**, and what has been found stays in
front. -/
theorem flood (h : Layered edges start unseen visited queue) :
    (visited ++ queue) <+: flood edges unseen visited queue ∧
      (ShaderGraph.flood edges unseen visited queue).Nodup ∧
      (ShaderGraph.flood edges unseen visited queue).Pairwise fun u v =>
        edges.distance start u ≤ edges.distance start v := by
  induction unseen, visited, queue using flood.induct edges with
  | case1 unseen visited =>
    rw [ShaderGraph.flood, List.append_nil]
    have hnodup := h.nodup
    have hsorted := h.sorted
    rw [List.append_nil] at hnodup hsorted
    exact ⟨List.prefix_rfl, (List.nodup_append.1 hnodup).1, hsorted⟩
  | case2 unseen visited first queue discovered ih =>
    rw [ShaderGraph.flood]
    obtain ⟨hfront, hnodup, hsorted⟩ := ih h.step
    obtain ⟨fresh, hqueue, -, -⟩ := exists_discover_eq (edges.targetsOf first) queue unseen
    refine ⟨List.IsPrefix.trans ?_ hfront, hnodup, hsorted⟩
    exact ⟨fresh, by simp only [discovered, hqueue, List.append_assoc, List.cons_append,
      List.nil_append]⟩

end Layered

namespace Graph

variable {settings : Settings} {g : Graph} {changed : List String}

/-- The search starts with the changed ids, which are no edges away. -/
theorem layered_start (settings : Settings) (g : Graph) (changed : List String) :
    Layered (g.edges settings) changed (g.nodeIds.filter fun id => !changed.contains id) []
      (distinct changed) := by
  have hzero : ∀ id ∈ distinct changed, (g.edges settings).distance changed id = 0 :=
    fun id hid => distanceFrom_eq_zero (mem_distinct.1 hid)
  refine ⟨spread_start settings g changed, ?_, ?_, ?_⟩
  · refine (nodup_distinct changed).append (g.nodup_nodeIds.filter _) fun id hchanged hunseen => ?_
    have hnot := (List.mem_filter.1 hunseen).2
    rw [List.contains_iff_mem.2 (mem_distinct.1 hchanged)] at hnot
    cases hnot
  · exact List.pairwise_of_forall_mem_list fun u hu v hv => by rw [hzero u hu, hzero v hv]
  · exact List.pairwise_of_forall_mem_list fun u hu v hv => by
      rw [hzero u hu, hzero v hv]
      exact Nat.zero_le _

/-- **The nodes that a change affects, nearest first.** For every graph, cyclic or not, and every
list of changed ids, unknown and repeated ones included: no id is listed twice. Listed are the
changed ids and every node that can be reached from one of them along edges, which are connections
between nodes of the graph whose source is not virtual. The changed ids stand in front, each where
it is first given, and the distance from them never gets smaller along the list. -/
theorem affected_nearest_first (settings : Settings) (g : Graph) (changed : List String) :
    (g.affected settings changed).Nodup ∧
    (∀ id, id ∈ g.affected settings changed
      ↔ ∃ s ∈ changed, ReflTransGen (g.Feeds settings) s id) ∧
    distinct changed <+: g.affected settings changed ∧
    (g.affected settings changed).Pairwise fun u v =>
      distanceFrom (g.Feeds settings) changed u ≤ distanceFrom (g.Feeds settings) changed v := by
  obtain ⟨hfront, hnodup, hsorted⟩ := (layered_start settings g changed).flood
  rw [← edges_rel]
  refine ⟨hnodup, fun id => ?_, hfront, hsorted⟩
  rw [mem_affected, edges_rel]

end Graph

end ShaderGraph
