import ShaderGraph.Proofs.ExecutionOrder
import Mathlib.Data.List.Induction

/-!
# Dependencies and dependents

The two tables of a graph hold its edges twice, under their targets and under their sources. Both
are filled by entering the edges one at a time, and they differ in nothing but the way the edges are
turned (`dependencies_eq_ofPairs`, `dependents_eq_ofPairs`). So each lists under a node the nodes
under which the other lists that node.

Sorting reads both. The degree of a node is the length of its list in the one table, and degrees are
lowered along the lists of the other. `Run` keeps the nodes whose degrees a run of the loop lowers;
but for those still pending they are the dependents of the placed nodes, list after list
(`Run.lowered_append_pending`). Since a node is placed once, a node is lowered once for each of its
sources that is placed, and the degrees never have to give more than they hold.
-/

namespace ShaderGraph

variable {edges : Edges} {id : String}

/-! ## Tables filled edge by edge -/

/-- Lists of texts, each under a key. -/
abbrev Table := List (String × List String)

namespace Table

/-- What stands under a key; nothing, if the table has no such key. -/
def under (table : Table) (key : String) : List String := (table.lookup key).getD []

/-- Enters an item under a key, behind what stands there, unless it stands there already. -/
def enter (table : Table) (key item : String) : Table :=
  table.map fun entry =>
    if entry.1 = key ∧ item ∉ entry.2 then (entry.1, entry.2 ++ [item]) else entry

/-- The table of some keys in which pairs of a key and an item are entered one by one. -/
def ofPairs (keys : List String) (pairs : List (String × String)) : Table :=
  pairs.foldl (fun table pair => enter table pair.1 pair.2) (keys.map fun key => (key, []))

/-- In a table made from a function the function's values are found, if it gives nothing for other
keys. -/
theorem under_map {keys : List String} {f : String → List String} {key : String}
    (h : key ∉ keys → f key = []) : under (keys.map fun key => (key, f key)) key = f key := by
  by_cases hkey : key ∈ keys
  · rw [under, List.lookup_graph f hkey, Option.getD_some]
  · have hnone : (keys.map fun key => (key, f key)).lookup key = none := by
      rw [List.lookup_eq_none_iff]
      intro entry hentry
      obtain ⟨other, hother, rfl⟩ := List.mem_map.1 hentry
      refine bne_iff_ne.2 ?_
      rintro rfl
      exact hkey hother
    rw [under, hnone, h hkey, Option.getD_none]

end Table

namespace Edges

/-- Turning the edges around makes targets of sources. -/
theorem sourcesOf_eq_targetsOf_swap (edges : Edges) (id : String) :
    edges.sourcesOf id = targetsOf (edges.map Prod.swap) id := by
  rw [sourcesOf, targetsOf, List.filter_map, List.map_map]
  rfl

/-- One more edge adds its target to those of its source, if it is new there. -/
theorem targetsOf_concat (edges : Edges) (source target id : String) :
    targetsOf (edges ++ [(source, target)]) id =
      if id = source ∧ target ∉ edges.targetsOf id then edges.targetsOf id ++ [target]
      else edges.targetsOf id := by
  rw [targetsOf, List.filter_append, List.map_append]
  by_cases hid : id = source
  · have hlast : (List.filter (·.1 == id) [(source, target)]).map Prod.snd = [target] := by
      simp [hid]
    rw [hlast, distinct_concat, ← targetsOf]
    simp [hid]
  · have hlast : (List.filter (·.1 == id) [(source, target)]).map Prod.snd = [] := by
      simp [Ne.symm hid]
    rw [hlast, List.append_nil, ← targetsOf, if_neg fun h => hid h.1]

end Edges

/-- **A table filled edge by edge lists the targets of every key.** -/
theorem Table.ofPairs_eq (keys : List String) (edges : Edges) :
    ofPairs keys edges = keys.map fun key => (key, edges.targetsOf key) := by
  induction edges using List.reverseRecOn with
  | nil => rfl
  | append_singleton edges edge ih =>
    -- the last edge is entered in the table of those before it
    rw [ofPairs, List.foldl_append, ← ofPairs, ih, List.foldl_cons, List.foldl_nil, enter,
      List.map_map]
    refine List.map_congr_left fun key _ => ?_
    rw [Edges.targetsOf_concat, Function.comp_apply]
    split <;> rfl

/-! ## Runs and what they lower -/

/-- Every node of a list takes one source from each of its targets: what a node has lost to the list
and what it still waits for are its sources. -/
theorem count_targetsOf_add_waiting (edges : Edges) {placed : List String} (h : placed.Nodup)
    (id : String) :
    (placed.flatMap edges.targetsOf).count id + waiting edges placed id
      = (edges.sourcesOf id).length := by
  induction placed using List.reverseRecOn with
  | nil => rw [waiting_nil, List.flatMap_nil, List.count_nil, Nat.zero_add]
  | append_singleton placed u ih =>
    -- the node at the end is new, so it takes its share from what was waiting before it
    obtain ⟨hplaced, -, hdisjoint⟩ := List.nodup_append.1 h
    have hu : u ∉ placed := fun hmem => hdisjoint u hmem u (List.mem_singleton_self u) rfl
    have hlost : waiting edges (placed ++ [u]) id + (edges.targetsOf u).count id
        = waiting edges placed id := waiting_append hu id
    rw [List.flatMap_append, List.flatMap_singleton, List.count_append, ← ih hplaced, ← hlost]
    omega

namespace DrainState

/-- A run that lowers the degrees of the listed nodes, one after the other. What a step lowers is
the first pending node; with nothing pending it takes a node out and lowers none. -/
inductive Run (edges : Edges) (s : DrainState) : List String → DrainState → Prop where
  | refl : Run edges s [] s
  | tail {lowered : List String} {t next : DrainState} (run : Run edges s lowered t)
      (step : Step edges t next) : Run edges s (lowered ++ t.pending.take 1) next

variable {s t : DrainState} {lowered : List String}

theorem Run.reaches (h : Run edges s lowered t) : Reaches edges s t := by
  induction h with
  | refl => exact .refl
  | tail _ step ih => exact ih.tail step

theorem exists_run (h : Reaches edges s t) : ∃ lowered, Run edges s lowered t := by
  induction h with
  | refl => exact ⟨[], .refl⟩
  | tail _ step ih =>
    obtain ⟨lowered, run⟩ := ih
    exact ⟨_, run.tail step⟩

/-- A step lowers the degree of the first pending node by one and leaves the others alone. -/
theorem Step.lookup_degrees (h : Step edges s t) : t.degrees.lookup id
    = (s.degrees.lookup id).map (· - (s.pending.take 1).count id) := by
  cases h with
  | lower degrees placed first rest queue =>
    rw [Degrees.lookup_lower]
    by_cases hid : id = first
    · subst hid
      simp
    · simp [hid, Ne.symm hid]
  | take degrees placed first queue => simp

/-- **A degree falls by the number of times it is lowered.** -/
theorem Run.lookup_degrees (h : Run edges s lowered t) :
    t.degrees.lookup id = (s.degrees.lookup id).map (· - lowered.count id) := by
  induction h with
  | refl => simp
  | tail _ step ih =>
    rw [step.lookup_degrees, ih, Option.map_map]
    congr 1
    funext degree
    rw [Function.comp_apply, List.count_append, Nat.sub_add_eq]

/-- A step moves the first pending node to those lowered, or makes the targets of the node that it
places pending. -/
theorem Step.append_pending (h : Step edges s t)
    (hs : lowered ++ s.pending = s.placed.flatMap edges.targetsOf) :
    lowered ++ s.pending.take 1 ++ t.pending = t.placed.flatMap edges.targetsOf := by
  cases h with
  | lower degrees placed first rest queue => simpa using hs
  | take degrees placed first queue =>
    rw [List.append_nil] at hs
    simp [hs]

/-- **What is lowered, and then what is pending, are the targets of the placed nodes.** -/
theorem Run.lowered_append_pending (h : Run edges s lowered t)
    (hs : s.pending = s.placed.flatMap edges.targetsOf) :
    lowered ++ t.pending = t.placed.flatMap edges.targetsOf := by
  induction h with
  | refl => exact hs
  | tail _ step ih => exact step.append_pending ih

end DrainState

/-! ## The tables of a graph -/

namespace Graph

open DrainState (Run)

variable {settings : Settings} {g : Graph} {u v : String}

theorem dependents_eq_ofPairs (settings : Settings) (g : Graph) :
    g.dependents settings = Table.ofPairs g.nodeIds (g.edges settings) :=
  (Table.ofPairs_eq _ _).symm

theorem dependencies_eq_ofPairs (settings : Settings) (g : Graph) :
    g.dependencies settings = Table.ofPairs g.nodeIds ((g.edges settings).map Prod.swap) := by
  simp only [Table.ofPairs_eq, ← Edges.sourcesOf_eq_targetsOf_swap]
  rfl

theorem mem_targetsOf_edges : v ∈ (g.edges settings).targetsOf u ↔ g.Feeds settings u v :=
  Edges.mem_targetsOf.trans mem_edges

/-- A node feeds another exactly if a connection runs to it and the source is not virtual. -/
theorem feeds_iff : g.Feeds settings u v ↔ u ∈ g.nodeIds ∧ v ∈ g.nodeIds ∧
    ∃ c ∈ g.connections, settings.isVirtual c.sourceId = false ∧ c.sourceId = u ∧
      c.targetId = v := by
  rw [Feeds, mem_nodeIds, mem_nodeIds]
  constructor
  · rintro ⟨hvirtual, hu, hv, c, hc, rfl, rfl⟩
    exact ⟨hu, hv, c, hc, hvirtual, rfl, rfl⟩
  · rintro ⟨hu, hv, c, hc, hvirtual, rfl, rfl⟩
    exact ⟨hvirtual, hu, hv, c, hc, rfl, rfl⟩

/-- The table of dependencies lists the sources of every id; an id without a node has none. -/
theorem under_dependencies (settings : Settings) (g : Graph) (id : String) :
    Table.under (g.dependencies settings) id = (g.edges settings).sourcesOf id := by
  refine Table.under_map fun hid => List.eq_nil_iff_forall_not_mem.2 fun u hu => ?_
  exact hid (mem_sourcesOf_edges.1 hu).target_mem

theorem under_dependents (settings : Settings) (g : Graph) (id : String) :
    Table.under (g.dependents settings) id = (g.edges settings).targetsOf id := by
  refine Table.under_map fun hid => List.eq_nil_iff_forall_not_mem.2 fun v hv => ?_
  exact hid (mem_targetsOf_edges.1 hv).source_mem

/-- No list of either table repeats an id or holds one without a node. -/
theorem tables_entries {entry : String × List String}
    (h : entry ∈ g.dependencies settings ++ g.dependents settings) :
    entry.2.Nodup ∧ ∀ id ∈ entry.2, id ∈ g.nodeIds := by
  rcases List.mem_append.1 h with h | h
  · obtain ⟨key, -, rfl⟩ := List.mem_map.1 h
    exact ⟨Edges.nodup_sourcesOf _ key, fun u hu => (mem_sourcesOf_edges.1 hu).source_mem⟩
  · obtain ⟨key, -, rfl⟩ := List.mem_map.1 h
    exact ⟨Edges.nodup_targetsOf _ key, fun v hv => (mem_targetsOf_edges.1 hv).target_mem⟩

/-- **A node has as many sources as there are places where it is listed as a dependent.** -/
theorem length_sourcesOf_eq_count (settings : Settings) (g : Graph) (v : String) :
    ((g.edges settings).sourcesOf v).length
      = ((g.dependents settings).flatMap Prod.snd).count v := by
  have hnone : waiting (g.edges settings) g.nodeIds v = 0 :=
    waiting_eq_zero.2 fun u hu => (mem_sourcesOf_edges.1 hu).source_mem
  rw [← count_targetsOf_add_waiting _ g.nodup_nodeIds v, hnone, Nat.add_zero, dependents,
    List.flatMap_map]

/-! ## Degrees along a run -/

section Lowered

variable {lowered : List String} {s last : DrainState}

/-- A source of a node has lowered it, is about to lower it, or is waiting. -/
theorem count_lowered_add_waiting
    (run : Run (g.edges settings) (g.firstState settings) lowered s) (v : String) :
    lowered.count v + s.pending.count v + waiting (g.edges settings) s.placed v
      = ((g.edges settings).sourcesOf v).length := by
  have hplaced : s.placed.Nodup :=
    (List.nodup_append.1 (sound_of_reaches run.reaches).queued_nodup).1
  rw [← List.count_append, run.lowered_append_pending rfl]
  exact count_targetsOf_add_waiting _ hplaced v

/-- What a node has been lowered and what it can still be lowered make up its sources. -/
theorem count_lowered_add_left (run : Run (g.edges settings) (g.firstState settings) lowered s)
    (hv : v ∈ g.nodeIds) : ∃ left, s.degrees.lookup v = some left ∧
      lowered.count v + left = ((g.edges settings).sourcesOf v).length := by
  have hcount := count_lowered_add_waiting run v
  refine ⟨((g.edges settings).sourcesOf v).length - lowered.count v, ?_, by omega⟩
  rw [run.lookup_degrees, degrees_firstState hv, Option.map_some]

variable (hlast : g.IsLastState settings last)
  (run : Run (g.edges settings) (g.firstState settings) lowered last)

include hlast run

/-- In the end every dependent of every placed node has been lowered. -/
theorem lowered_eq_flatMap : lowered = last.placed.flatMap (g.edges settings).targetsOf := by
  have h := run.lowered_append_pending rfl
  rwa [hlast.pending, List.append_nil] at h

/-- A node can be placed exactly if it is lowered as often as it can be. -/
theorem mem_placeable_iff_count (hv : v ∈ g.nodeIds) : v ∈ g.placeable settings
    ↔ lowered.count v = ((g.edges settings).sourcesOf v).length := by
  have hcount := count_lowered_add_waiting run v
  rw [hlast.pending, List.count_nil] at hcount
  have hzero : lowered.count v = ((g.edges settings).sourcesOf v).length
      ↔ waiting (g.edges settings) last.placed v = 0 := by omega
  rw [hzero, waiting_eq_zero, mem_placeable_iff hv]
  simp only [mem_sourcesOf_edges]
  -- a source is mentioned, so it can be placed exactly if the loop has placed it
  refine forall_congr' fun u => imp_congr_right fun hfeeds => ?_
  exact mem_placed_of_mem_placeable hlast hfeeds.source_mentioned

end Lowered

/-- **Dependencies and dependents are converse.** Both tables have the ids of the nodes as keys,
each once, and are filled by entering the edges one by one. Their lists repeat nothing and hold ids
of nodes only. A node stands among the dependencies of another exactly if the other stands among its
dependents, and that is so exactly if a connection runs from the one node to the other and its
source is not virtual.

The degrees that sorting starts from are the lengths of the lists of dependencies, and these are the
numbers of times that the nodes are listed as dependents. In every run, the times that a node has
been lowered and the degree it is left with add up to the degree it started from. The whole run
lowers the dependents of all nodes that it places, and a node can be placed exactly if it is lowered
as often as its degree says. -/
theorem dependencies_converse (settings : Settings) (g : Graph) :
    ((g.dependencies settings).map Prod.fst = g.nodeIds ∧
      (g.dependents settings).map Prod.fst = g.nodeIds ∧
      g.nodeIds.Nodup ∧ ∀ id, id ∈ g.nodeIds ↔ ∃ n ∈ g.nodes, n.id = id) ∧
    (g.dependencies settings = Table.ofPairs g.nodeIds ((g.edges settings).map Prod.swap) ∧
      g.dependents settings = Table.ofPairs g.nodeIds (g.edges settings)) ∧
    (∀ entry ∈ g.dependencies settings ++ g.dependents settings,
      entry.2.Nodup ∧ ∀ id ∈ entry.2, id ∈ g.nodeIds) ∧
    (∀ u v, (u ∈ Table.under (g.dependencies settings) v
        ↔ v ∈ Table.under (g.dependents settings) u) ∧
      (v ∈ Table.under (g.dependents settings) u ↔ u ∈ g.nodeIds ∧ v ∈ g.nodeIds ∧
        ∃ c ∈ g.connections, settings.isVirtual c.sourceId = false ∧ c.sourceId = u ∧
          c.targetId = v)) ∧
    (∀ v ∈ g.nodeIds,
      (g.firstState settings).degrees.lookup v
        = some (Table.under (g.dependencies settings) v).length ∧
      (Table.under (g.dependencies settings) v).length
        = ((g.dependents settings).flatMap Prod.snd).count v) ∧
    (∀ lowered s, Run (g.edges settings) (g.firstState settings) lowered s → ∀ v ∈ g.nodeIds,
      ∃ left, s.degrees.lookup v = some left ∧
        lowered.count v + left = (Table.under (g.dependencies settings) v).length) ∧
    ∃ lowered last, Run (g.edges settings) (g.firstState settings) lowered last ∧
      g.IsLastState settings last ∧
      lowered = last.placed.flatMap (Table.under (g.dependents settings)) ∧
      ∀ v ∈ g.nodeIds, v ∈ g.placeable settings
        ↔ lowered.count v = (Table.under (g.dependencies settings) v).length := by
  have htargets : Table.under (g.dependents settings) = (g.edges settings).targetsOf :=
    funext (under_dependents settings g)
  simp only [under_dependencies, htargets]
  refine ⟨⟨?_, ?_, g.nodup_nodeIds, fun id => mem_nodeIds⟩,
    ⟨dependencies_eq_ofPairs settings g, dependents_eq_ofPairs settings g⟩,
    fun entry => tables_entries, fun u v => ⟨Edges.mem_targetsOf_iff_mem_sourcesOf.symm,
      mem_targetsOf_edges.trans feeds_iff⟩,
    fun v hv => ⟨degrees_firstState hv, length_sourcesOf_eq_count settings g v⟩,
    fun lowered s run v => count_lowered_add_left run, ?_⟩
  · simp [dependencies, Function.comp_def]
  · simp [dependents, Function.comp_def]
  · obtain ⟨last, hlast⟩ := g.exists_isLastState settings
    obtain ⟨lowered, run⟩ := DrainState.exists_run hlast.reaches
    exact ⟨lowered, last, run, hlast, lowered_eq_flatMap hlast run,
      fun v => mem_placeable_iff_count hlast run⟩

/-- The frayed graph with a node that reads from itself. -/
def looped : Graph :=
  { frayed with
    connections := frayed.connections ++ [.between "" ("c", "out") "c" (.port "in")] }

/-- The looping node has three sources, of which it is one. It is lowered for the other two and
keeps the degree one. -/
theorem dependencies_converse_looped :
    looped.dependencies {} = [("c", ["b", "a", "c"]), ("alone", []), ("b", ["a"]), ("a", []),
      ("virtual:lamp", ["c"])] ∧
    looped.dependents {} = [("c", ["virtual:lamp", "c"]), ("alone", []), ("b", ["c"]),
      ("a", ["b", "c"]), ("virtual:lamp", [])] ∧
    ∃ last, Run (looped.edges {}) (looped.firstState {}) ["b", "c", "c"] last ∧
      last.degrees.lookup "c" = some 1 := by
  have hdependencies : looped.dependencies {} = [("c", ["b", "a", "c"]), ("alone", []),
    ("b", ["a"]), ("a", []), ("virtual:lamp", ["c"])] := by decide +kernel
  have hdependents : looped.dependents {} = [("c", ["virtual:lamp", "c"]), ("alone", []),
    ("b", ["c"]), ("a", ["b", "c"]), ("virtual:lamp", [])] := by decide +kernel
  obtain ⟨-, -, -, -, -, hleft, lowered, last, run, hlast, hlowered, -⟩ :=
    dependencies_converse {} looped
  have hplaced : last.placed = ["a", "b"] := by
    have hplaceable : looped.placeable {} = ["a", "b"] ++ ["alone"] := by decide +kernel
    have halone : (looped.nodeIds.filter fun id => !looped.isMentioned id) = ["alone"] := by
      decide +kernel
    have h := hlast.placeable
    rw [hplaceable, halone] at h
    exact (List.append_cancel_right h).symm
  rw [hplaced, hdependents] at hlowered
  have hlowered : lowered = ["b", "c", "c"] := hlowered.trans (by decide)
  subst hlowered
  obtain ⟨left, hlookup, hsum⟩ := hleft _ last run "c" (by decide +kernel)
  rw [hdependencies] at hsum
  have hone : left = 1 := by
    have hlength : (Table.under [("c", ["b", "a", "c"]), ("alone", []), ("b", ["a"]), ("a", []),
      ("virtual:lamp", ["c"])] "c").length = 3 := by decide
    have hcount : ["b", "c", "c"].count "c" = 2 := by decide
    omega
  exact ⟨hdependencies, hdependents, last, run, hone ▸ hlookup⟩

end Graph

end ShaderGraph
