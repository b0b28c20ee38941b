import ShaderGraph.Order
import Mathlib.Logic.Relation

/-!
# Edges of a graph

`Feeds` says which node reads from which in terms of the connections alone: a connection runs from
one node of the graph to another and its source is not virtual. The edges, the sources of a node and
its targets all list this relation, the latter two without repetitions, so a node has as many
sources as there are nodes whose targets it is among.

Nodes on a cycle of `Feeds`, and nodes behind one, are `Blocked`.
-/

namespace ShaderGraph

open Relation

variable {edges : Edges} {u v id : String}

namespace Edges

theorem mem_sourcesOf : u ∈ edges.sourcesOf v ↔ (u, v) ∈ edges := by
  rw [sourcesOf, mem_distinct]
  simp

theorem mem_targetsOf : v ∈ edges.targetsOf u ↔ (u, v) ∈ edges := by
  rw [targetsOf, mem_distinct]
  simp

/-- A node is a source of its targets and a target of its sources. -/
theorem mem_targetsOf_iff_mem_sourcesOf : v ∈ edges.targetsOf u ↔ u ∈ edges.sourcesOf v :=
  mem_targetsOf.trans mem_sourcesOf.symm

theorem nodup_sourcesOf (edges : Edges) (id : String) : (edges.sourcesOf id).Nodup :=
  nodup_distinct _

theorem nodup_targetsOf (edges : Edges) (id : String) : (edges.targetsOf id).Nodup :=
  nodup_distinct _

end Edges

namespace Graph

variable {settings : Settings} {g : Graph}

theorem mem_nodeIds : id ∈ g.nodeIds ↔ ∃ n ∈ g.nodes, n.id = id := by
  rw [nodeIds, mem_distinct, List.mem_map]

theorem nodup_nodeIds (g : Graph) : g.nodeIds.Nodup := nodup_distinct _

theorem hasNode_iff : g.hasNode id = true ↔ id ∈ g.nodeIds := by
  rw [mem_nodeIds, hasNode, List.any_eq_true]
  simp only [beq_iff_eq]

theorem isSome_node?_iff : (g.node? id).isSome = true ↔ id ∈ g.nodeIds := by
  rw [mem_nodeIds, node?, List.find?_isSome]
  simp only [beq_iff_eq]

/-- Where ids differ, a node is found under its id. -/
theorem node?_eq_some (h : (g.nodes.map (·.id)).Nodup) {n : Node} (hn : n ∈ g.nodes) :
    g.node? n.id = some n := by
  have hapart : g.nodes.Pairwise fun m n => m.id ≠ n.id := List.pairwise_map.1 h
  have hbeq : (fun m : Node => m.id == n.id) = fun m => decide (m.id = n.id) := rfl
  rw [node?, hbeq, ← List.head?_filter, filter_eq_singleton hapart hn]
  rfl

/-- Some connection runs from the one node to the other, and its source is not virtual. -/
def Feeds (settings : Settings) (g : Graph) (u v : String) : Prop :=
  settings.isVirtual u = false ∧ (∃ n ∈ g.nodes, n.id = u) ∧ (∃ n ∈ g.nodes, n.id = v)
    ∧ ∃ c ∈ g.connections, c.sourceId = u ∧ c.targetId = v

/-- The node lies on a cycle or can be reached from one. -/
def Blocked (settings : Settings) (g : Graph) (id : String) : Prop :=
  ∃ u, TransGen (g.Feeds settings) u u ∧ ReflTransGen (g.Feeds settings) u id

/-- **The edges list the relation.** -/
theorem mem_edges : (u, v) ∈ g.edges settings ↔ g.Feeds settings u v := by
  simp only [edges, isEdge, Feeds, List.mem_map, List.mem_filter, Bool.and_eq_true,
    Bool.not_eq_true', hasNode_iff, mem_nodeIds, Prod.mk.injEq]
  constructor
  · rintro ⟨c, ⟨hc, ⟨hvirtual, hsource⟩, htarget⟩, rfl, rfl⟩
    exact ⟨hvirtual, hsource, htarget, c, hc, rfl, rfl⟩
  · rintro ⟨hvirtual, hsource, htarget, c, hc, rfl, rfl⟩
    exact ⟨c, ⟨hc, ⟨hvirtual, hsource⟩, htarget⟩, rfl, rfl⟩

theorem mem_sourcesOf_edges : u ∈ (g.edges settings).sourcesOf v ↔ g.Feeds settings u v :=
  Edges.mem_sourcesOf.trans mem_edges

namespace Feeds

theorem source_mem (h : g.Feeds settings u v) : u ∈ g.nodeIds := mem_nodeIds.2 h.2.1

theorem target_mem (h : g.Feeds settings u v) : v ∈ g.nodeIds := mem_nodeIds.2 h.2.2.1

/-- Both ends of an edge are mentioned, for a connection names them. -/
theorem source_mentioned (h : g.Feeds settings u v) : g.isMentioned u = true := by
  obtain ⟨-, -, -, c, hc, rfl, -⟩ := h
  exact List.any_eq_true.2 ⟨c, hc, by simp⟩

theorem target_mentioned (h : g.Feeds settings u v) : g.isMentioned v = true := by
  obtain ⟨-, -, -, c, hc, -, rfl⟩ := h
  exact List.any_eq_true.2 ⟨c, hc, by simp⟩

end Feeds

end Graph

end ShaderGraph
