import ShaderGraph.Proofs.Drain
import Mathlib.Data.List.Perm.Subperm

/-!
# The order of execution

What sorting a graph gives. A node can be placed exactly if all nodes that feed it can, and it
stands behind them; an order of execution is a list of this kind that holds every node once.
Connections that are no edges, because an end is missing or the source is virtual, decide nothing
but whether a node stands with those that no connection mentions.
-/

namespace ShaderGraph

open DrainState (Reaches Sound)

variable {edges : Edges} {u v id : String}

/-- In a list ordered along the edges a source has a lower place than its target. -/
theorem Edges.Ordered.idxOf_lt {placed : List String} (h : edges.Ordered placed)
    (hu : u ∈ edges.sourcesOf v) (hv : v ∈ placed) : placed.idxOf u < placed.idxOf v := by
  obtain ⟨before, after, rfl, hfirst⟩ := List.eq_append_cons_of_mem hv
  have hmem : u ∈ before := h before v after rfl u hu
  rw [List.idxOf_append_of_mem hmem, List.idxOf_append_of_notMem hfirst, List.idxOf_cons_self,
    Nat.add_zero]
  exact List.idxOf_lt_length_of_mem hmem

namespace Graph

variable {settings : Settings} {g : Graph}

/-! ## Sorting as a run -/

/-- The state that sorting a graph starts from. -/
def firstState (settings : Settings) (g : Graph) : DrainState where
  degrees := g.nodeIds.map fun id => (id, ((g.edges settings).sourcesOf id).length)
  placed := []
  pending := []
  queue := (g.nodeIds.filter g.isMentioned).filter fun id =>
    ((g.edges settings).sourcesOf id).isEmpty

/-- The state that sorting a graph ends in: nothing is left to do there, and the nodes that no
connection mentions are put behind those placed. -/
structure IsLastState (settings : Settings) (g : Graph) (last : DrainState) : Prop where
  reaches : Reaches (g.edges settings) (g.firstState settings) last
  pending : last.pending = []
  queue : last.queue = []
  placeable : g.placeable settings = last.placed ++ g.nodeIds.filter fun id => !g.isMentioned id

theorem exists_isLastState (settings : Settings) (g : Graph) :
    ∃ last, g.IsLastState settings last := by
  obtain ⟨rest, h⟩ := DrainState.reaches_drain (g.edges settings)
    (g.firstState settings).degrees [] (g.firstState settings).queue
  exact ⟨_, h, rfl, rfl, rfl⟩

theorem degrees_firstState (hid : id ∈ g.nodeIds) :
    (g.firstState settings).degrees.lookup id = some ((g.edges settings).sourcesOf id).length := by
  refine lookup_eq_some_of_mem ?_ (List.mem_map.2 ⟨id, hid, rfl⟩)
  rw [firstState, List.map_map]
  simpa [Function.comp_def] using g.nodup_nodeIds

/-- The run starts soundly: nothing is placed, so every source is waiting. -/
theorem sound_firstState (settings : Settings) (g : Graph) :
    Sound (g.edges settings) (g.nodeIds.filter g.isMentioned) (g.firstState settings) where
  queued_nodup := (g.nodup_nodeIds.filter _).filter _
  queued_subset := fun id hid => (List.mem_filter.1 hid).1
  pending_nodup := List.nodup_nil
  pending_subset := fun id hid => absurd hid List.not_mem_nil
  degree := by
    intro id hid
    rw [degrees_firstState (List.mem_filter.1 hid).1, firstState, waiting_nil]
    simp
  queued_iff := by
    intro id hid
    rw [degrees_firstState (List.mem_filter.1 hid).1]
    simp [DrainState.queued, firstState, List.mem_filter.1 hid]
  ordered := Edges.Ordered.nil _

/-- Every state of the run is sound. -/
theorem sound_of_reaches {s : DrainState}
    (h : Reaches (g.edges settings) (g.firstState settings) s) :
    Sound (g.edges settings) (g.nodeIds.filter g.isMentioned) s := by
  refine (sound_firstState settings g).reaches (fun u v huv => ?_) h
  have hfeeds := mem_edges.1 huv
  exact List.mem_filter.2 ⟨hfeeds.target_mem, hfeeds.target_mentioned⟩

/-! ## What can be placed -/

/-- No source feeds a node that no connection mentions. -/
theorem not_feeds_of_not_mentioned (h : g.isMentioned v = false) : ¬ g.Feeds settings u v := by
  intro hfeeds
  rw [hfeeds.target_mentioned] at h
  exact absurd h (by decide)

theorem nodup_placeable (settings : Settings) (g : Graph) : (g.placeable settings).Nodup := by
  obtain ⟨last, hlast⟩ := g.exists_isLastState settings
  have hs := sound_of_reaches hlast.reaches
  have hqueued : last.queued = last.placed := DrainState.queued_eq_placed hlast.queue
  rw [hlast.placeable]
  refine List.Nodup.append (hqueued ▸ hs.queued_nodup) (g.nodup_nodeIds.filter _) ?_
  intro id hplaced halone
  have hmentioned := (List.mem_filter.1 (hs.queued_subset id (hqueued ▸ hplaced))).2
  have halone := (List.mem_filter.1 halone).2
  rw [hmentioned] at halone
  exact absurd halone (by decide)

theorem mem_nodeIds_of_mem_placeable (h : id ∈ g.placeable settings) : id ∈ g.nodeIds := by
  obtain ⟨last, hlast⟩ := g.exists_isLastState settings
  rw [hlast.placeable] at h
  rcases List.mem_append.1 h with h | h
  · have hs := sound_of_reaches hlast.reaches
    exact (List.mem_filter.1 (hs.queued_subset id (List.mem_append_left _ h))).1
  · exact (List.mem_filter.1 h).1

/-- A mentioned node that can be placed is placed by the loop. -/
theorem mem_placed_of_mem_placeable {last : DrainState} (hlast : g.IsLastState settings last)
    (hid : g.isMentioned id = true) : id ∈ g.placeable settings ↔ id ∈ last.placed := by
  rw [hlast.placeable]
  simp [hid]

/-- **A node can be placed if and only if all nodes that feed it can.** -/
theorem mem_placeable_iff (hv : v ∈ g.nodeIds) :
    v ∈ g.placeable settings ↔ ∀ u, g.Feeds settings u v → u ∈ g.placeable settings := by
  obtain ⟨last, hlast⟩ := g.exists_isLastState settings
  by_cases hmentioned : g.isMentioned v = true
  · have hs := sound_of_reaches hlast.reaches
    rw [mem_placed_of_mem_placeable hlast hmentioned, hs.mem_placed_iff hlast.pending hlast.queue
      (List.mem_filter.2 ⟨hv, hmentioned⟩)]
    simp only [mem_sourcesOf_edges]
    refine forall_congr' fun u => imp_congr_right fun hfeeds => ?_
    exact (mem_placed_of_mem_placeable hlast hfeeds.source_mentioned).symm
  · have hmentioned : g.isMentioned v = false := by simpa using hmentioned
    refine iff_of_true ?_ fun u hfeeds => absurd hfeeds (not_feeds_of_not_mentioned hmentioned)
    rw [hlast.placeable]
    exact List.mem_append_right _ (List.mem_filter.2 ⟨hv, by simp [hmentioned]⟩)

/-- **What can be placed is ordered along the edges.** -/
theorem ordered_placeable (settings : Settings) (g : Graph) :
    (g.edges settings).Ordered (g.placeable settings) := by
  obtain ⟨last, hlast⟩ := g.exists_isLastState settings
  rw [hlast.placeable]
  refine (sound_of_reaches hlast.reaches).ordered.append fun id hid u hu => ?_
  have hmentioned : g.isMentioned id = false := by simpa using (List.mem_filter.1 hid).2
  exact absurd (mem_sourcesOf_edges.1 hu) (not_feeds_of_not_mentioned hmentioned)

/-! ## Success and failure -/

/-- There are as many places as nodes exactly if every node can be placed. -/
theorem length_placeable_iff : (g.placeable settings).length = g.nodeIds.length
    ↔ ∀ id ∈ g.nodeIds, id ∈ g.placeable settings := by
  have hsub : List.Subperm (g.placeable settings) g.nodeIds :=
    List.subperm_of_subset (nodup_placeable settings g) fun _ => mem_nodeIds_of_mem_placeable
  constructor
  · intro h id hid
    exact (hsub.perm_of_length_le (Nat.le_of_eq h.symm)).mem_iff.2 hid
  · intro h
    exact Nat.le_antisymm hsub.length_le (List.subperm_of_subset g.nodup_nodeIds h).length_le

theorem executionOrder_eq_ok_iff {order : List String} : g.executionOrder settings = .ok order
    ↔ (∀ id ∈ g.nodeIds, id ∈ g.placeable settings) ∧ order = g.placeable settings := by
  rw [← length_placeable_iff, executionOrder]
  split
  · rename_i h
    simp [h, eq_comm]
  · rename_i h
    simp [h]

theorem executionOrder_eq_error_iff {remaining : List String} :
    g.executionOrder settings = .error remaining
      ↔ (∃ id ∈ g.nodeIds, id ∉ g.placeable settings)
        ∧ remaining = g.nodeIds.filter fun id => !(g.placeable settings).contains id := by
  rw [executionOrder]
  split
  · rename_i h
    have hall := length_placeable_iff.1 h
    simp only [reduceCtorEq, false_iff, not_and]
    rintro ⟨id, hid, hplace⟩
    exact absurd (hall id hid) hplace
  · rename_i h
    rw [length_placeable_iff] at h
    push Not at h
    simp [h, eq_comm]

/-- The nodes of an order of execution are those of the graph. -/
theorem mem_executionOrder {order : List String} (h : g.executionOrder settings = .ok order) :
    id ∈ order ↔ id ∈ g.nodeIds := by
  obtain ⟨hall, rfl⟩ := executionOrder_eq_ok_iff.1 h
  exact ⟨mem_nodeIds_of_mem_placeable, hall id⟩

/-- **Sorting is correct and safe.** An order of execution holds every node id of the graph once and
nothing else, and the source of every edge stands strictly before its target. Sorting is the run of
the loop from its first state to a last one, and in no state of the run is a degree about to be
lowered below zero or has a node joined the queue twice. -/
theorem executionOrder_sorted (settings : Settings) (g : Graph) :
    (∀ order, g.executionOrder settings = .ok order →
      order.Nodup ∧ (∀ id, id ∈ order ↔ ∃ n ∈ g.nodes, n.id = id) ∧
      ∀ c ∈ g.connections, settings.isVirtual c.sourceId = false →
        (∃ n ∈ g.nodes, n.id = c.sourceId) → (∃ n ∈ g.nodes, n.id = c.targetId) →
        order.idxOf c.sourceId < order.idxOf c.targetId) ∧
    (∃ last, g.IsLastState settings last) ∧
    ∀ s, Reaches (g.edges settings) (g.firstState settings) s →
      s.queued.Nodup ∧ ∀ id ∈ s.pending, ∃ degree, s.degrees.lookup id = some (degree + 1) := by
  refine ⟨fun order h => ?_, g.exists_isLastState settings, fun s hs => ?_⟩
  · obtain ⟨hall, rfl⟩ := executionOrder_eq_ok_iff.1 h
    refine ⟨nodup_placeable settings g, fun id => ?_, fun c hc hvirtual hsource htarget => ?_⟩
    · rw [mem_executionOrder h, mem_nodeIds]
    · have hfeeds : g.Feeds settings c.sourceId c.targetId :=
        ⟨hvirtual, hsource, htarget, c, hc, rfl, rfl⟩
      exact (ordered_placeable settings g).idxOf_lt (mem_sourcesOf_edges.2 hfeeds)
        (hall _ hfeeds.target_mem)
  · have hsound := sound_of_reaches hs
    exact ⟨hsound.queued_nodup, fun id hid => hsound.degree_pos hid⟩

/-- A graph with repeated ids and connections, ends that are missing and a node that is virtual as a
source. -/
def frayed : Graph where
  id := "frayed"
  name := "frayed"
  version := formatVersion
  nodes := ["c", "alone", "b", "a", "b", "virtual:lamp"].map (Node.bare · "any")
  connections := [("b", "c"), ("a", "b"), ("a", "b"), ("a", "c"), ("missing", "a"),
    ("c", "missing"), ("virtual:lamp", "a"), ("c", "virtual:lamp")].map fun (source, target) =>
      .between "" (source, "out") target (.port "in")
  lanes := []

/-- The graph has an order of execution, and in it `b` stands before `c`. -/
theorem executionOrder_frayed :
    frayed.executionOrder {} = .ok ["a", "b", "c", "virtual:lamp", "alone"] ∧
    ["a", "b", "c", "virtual:lamp", "alone"].idxOf "b"
      < ["a", "b", "c", "virtual:lamp", "alone"].idxOf "c" := by
  have h : frayed.executionOrder {} = .ok ["a", "b", "c", "virtual:lamp", "alone"] := by
    decide +kernel
  obtain ⟨-, -, hsorted⟩ := (executionOrder_sorted {} frayed).1 _ h
  exact ⟨h, hsorted (.between "" ("b", "out") "c" (.port "in")) (by decide) (by decide)
    ⟨.bare "b" "any", by simp [frayed], rfl⟩ ⟨.bare "c" "any", by simp [frayed], rfl⟩⟩

end Graph

end ShaderGraph
