import ShaderGraph.Check.Types
import ShaderGraph.Proofs.Edges
import ShaderGraph.Proofs.Passes
import Mathlib.Data.List.Nodup
import Mathlib.Data.List.Pairwise

/-!
# Graphs without problems

What is known of a graph when the checks report nothing. The check of the structure settles that
every node has a type and every connection both its ends (`CleanGraph`). The check of types leaves
connections alone whose ends it cannot find; in a clean graph there are none, so it settles that
every connection reads an output there is and goes where it may (`typed_of_checkTypes`).
-/

namespace ShaderGraph

variable {catalog : Catalog} {settings : Settings} {g : Graph}

theorem reportIf_eq_nil {test : Bool} {problem : Problem} :
    reportIf test problem = [] ↔ test = false := by
  cases test <;> simp [reportIf]

/-! ## Nodes -/

/-- A node with an id that is not reserved, and of a known type. -/
structure CleanNode (catalog : Catalog) (settings : Settings) (n : Node) : Prop where
  named : Text.isBlankText n.id = false
  real : settings.isVirtual n.id = false
  typed : ∃ t, catalog.find? n.type = some t

theorem checkNode_eq_nil_iff {seen : List String} {n : Node} :
    checkNode catalog settings seen n = [] ↔ n.id ∉ seen ∧ settings.isVirtual n.id = false ∧
      Text.isBlankText n.type = false ∧ ∃ t, catalog.find? n.type = some t := by
  rw [checkNode, List.append_eq_nil_iff, List.append_eq_nil_iff, reportIf_eq_nil, reportIf_eq_nil,
    and_assoc, List.contains_eq_mem, decide_eq_false_iff_not]
  refine and_congr_right' (and_congr_right' ?_)
  cases Text.isBlankText n.type with
  | true => simp
  | false =>
    rw [if_neg Bool.false_ne_true, reportIf_eq_nil, Option.isNone_eq_false_iff,
      Option.isSome_iff_exists]
    exact (and_iff_right rfl).symm

/-- Nothing is reported on a clean node whose type is no blank and whose id is new. -/
theorem nodeReport_eq_nil_iff (before : List Node) (n : Node) :
    nodeReport catalog settings before n = [] ↔
      (CleanNode catalog settings n ∧ Text.isBlankText n.type = false) ∧
        ∀ m ∈ before, m.id ≠ n.id := by
  rw [nodeReport]
  split
  · rename_i hblank
    refine iff_of_false (List.cons_ne_nil _ _) fun h => ?_
    rw [h.1.1.named] at hblank
    cases hblank
  · rename_i hnamed
    rw [checkNode_eq_nil_iff, List.mem_map, not_exists]
    constructor
    · rintro ⟨hnew, hreal, htype, hknown⟩
      exact ⟨⟨⟨by simpa using hnamed, hreal, hknown⟩, htype⟩, fun m hm heq => hnew m ⟨hm, heq⟩⟩
    · rintro ⟨⟨hclean, htype⟩, hnew⟩
      exact ⟨fun m hm => hnew m hm.1 hm.2, hclean.real, htype, hclean.typed⟩

/-- **Nodes without problems** are clean and have ids of their own. -/
theorem checkNodes_eq_nil_iff {nodes : List Node} : checkNodes catalog settings [] nodes = [] ↔
    (∀ n ∈ nodes, CleanNode catalog settings n ∧ Text.isBlankText n.type = false) ∧
      (nodes.map (·.id)).Nodup := by
  rw [checkNodes_eq, List.Nodup, List.pairwise_map]
  exact reportEach_eq_nil_iff nodeReport_eq_nil_iff

/-! ## Connections -/

/-- A connection with an id, between ends that are known, into one input. -/
structure CleanConnection (settings : Settings) (known : List String) (c : Connection) : Prop where
  named : Text.isBlankText c.id = false
  output : Text.isBlankText c.sourcePort = false
  source : settings.isVirtual c.sourceId = true ∨ c.sourceId ∈ known
  real : settings.isVirtual c.targetId = false
  target : c.targetId ∈ known
  ends : ∃ target, c.target? = some target

/-- Two connections go into different inputs. -/
def Apart (a b : Connection) : Prop :=
  ∀ s t, a.target? = some s → b.target? = some t → inputKey a.targetId s ≠ inputKey b.targetId t

instance : Std.Symm Apart := ⟨fun _ _ h s t hs ht heq => h t s ht hs heq.symm⟩

theorem lastInto?_eq_none_iff {key : String} {before : List Connection} :
    lastInto? key before = none ↔ ∀ b ∈ before, b.key? ≠ some key := by
  simp [lastInto?, List.find?_eq_none]

theorem apart_iff_of_target? {b c : Connection} {target : Target} (h : c.target? = some target) :
    Apart b c ↔ b.key? ≠ some (inputKey c.targetId target) := by
  simp [Apart, Connection.key?, h]

theorem targetReport_eq_nil_iff {before : List Connection} {c : Connection} :
    targetReport before c = [] ↔ (∃ target, c.target? = some target) ∧ ∀ b ∈ before, Apart b c := by
  rw [targetReport, Connection.key?]
  cases htarget : c.target? with
  | none => simp
  | some target =>
    simp only [Option.map_some, Option.toList_eq_nil_iff, Option.map_eq_none_iff,
      lastInto?_eq_none_iff, apart_iff_of_target? htarget]
    exact (and_iff_right ⟨target, rfl⟩).symm

theorem checkEnds_eq_nil_iff {known seen : List String} {c : Connection} :
    checkEnds settings known seen c = [] ↔ c.id ∉ seen ∧ Text.isBlankText c.id = false ∧
      Text.isBlankText c.sourcePort = false ∧
      (settings.isVirtual c.sourceId = true ∨ c.sourceId ∈ known) ∧
      settings.isVirtual c.targetId = false ∧ c.targetId ∈ known := by
  rw [checkEnds]
  cases Text.isBlankText c.id <;> cases settings.isVirtual c.targetId <;>
    simp [reportIf_eq_nil, imp_iff_or_not, or_comm]

/-- Nothing is reported on a clean connection with a new id into an input that is free. -/
theorem connectionReport_eq_nil_iff {known : List String} (before : List Connection)
    (c : Connection) : connectionReport settings known before c = [] ↔
      CleanConnection settings known c ∧ ∀ b ∈ before, b.id ≠ c.id ∧ Apart b c := by
  rw [connectionReport, List.append_eq_nil_iff, checkEnds_eq_nil_iff, targetReport_eq_nil_iff,
    List.mem_map, not_exists]
  constructor
  · rintro ⟨⟨hnew, hnamed, houtput, hsource, hreal, htarget⟩, hends, hapart⟩
    exact ⟨⟨hnamed, houtput, hsource, hreal, htarget, hends⟩,
      fun b hb => ⟨fun heq => hnew b ⟨hb, heq⟩, hapart b hb⟩⟩
  · rintro ⟨hclean, hbefore⟩
    exact ⟨⟨fun b hb => (hbefore b hb.1).1 hb.2, hclean.named, hclean.output, hclean.source,
      hclean.real, hclean.target⟩, hclean.ends, fun b hb => (hbefore b hb).2⟩

/-- **Connections without problems** are clean, have ids of their own and go into different
inputs. -/
theorem checkConnections_eq_nil_iff {known : List String} {connections : List Connection} :
    checkConnections settings known [] [] connections = [] ↔
      (∀ c ∈ connections, CleanConnection settings known c) ∧ (connections.map (·.id)).Nodup ∧
        connections.Pairwise Apart := by
  rw [checkConnections_eq, List.Nodup, List.pairwise_map, ← List.pairwise_and_iff]
  exact reportEach_eq_nil_iff connectionReport_eq_nil_iff

/-! ## Graphs -/

/-- A graph whose nodes and connections are clean, each with a place of its own. -/
structure CleanGraph (catalog : Catalog) (settings : Settings) (g : Graph) : Prop where
  nodes : ∀ n ∈ g.nodes, CleanNode catalog settings n
  ids : (g.nodes.map (·.id)).Nodup
  connections : ∀ c ∈ g.connections, CleanConnection settings (knownIds g) c
  apart : g.connections.Pairwise Apart

/-- **A graph without problems of structure is clean.** -/
theorem cleanGraph_of_checkStructure (h : checkStructure catalog settings g = []) :
    CleanGraph catalog settings g := by
  simp only [checkStructure, List.append_eq_nil_iff] at h
  obtain ⟨⟨⟨-, hnodes⟩, hconnections⟩, -⟩ := h
  obtain ⟨hclean, hids⟩ := checkNodes_eq_nil_iff.1 hnodes
  obtain ⟨hends, -, hapart⟩ := checkConnections_eq_nil_iff.1 hconnections
  exact ⟨fun n hn => (hclean n hn).1, hids, hends, hapart⟩

theorem mem_nodeIds_of_mem_knownIds {id : String} (h : id ∈ knownIds g) : id ∈ g.nodeIds := by
  rw [Graph.mem_nodeIds]
  exact List.mem_map.1 (List.mem_filter.1 h).1

namespace CleanGraph

variable (hg : CleanGraph catalog settings g) {c : Connection}

include hg

/-- The ids of a clean graph tell its nodes apart. -/
theorem node?_eq {n : Node} (hn : n ∈ g.nodes) : g.node? n.id = some n :=
  Graph.node?_eq_some hg.ids hn

/-- Every known id has a type. -/
theorem exists_nodeType? {id : String} (h : id ∈ knownIds g) :
    ∃ t, g.nodeType? catalog id = some t := by
  obtain ⟨n, hn, rfl⟩ := Graph.mem_nodeIds.1 (mem_nodeIds_of_mem_knownIds h)
  obtain ⟨t, ht⟩ := (hg.nodes n hn).typed
  exact ⟨t, by rw [Graph.nodeType?, hg.node?_eq hn, Option.bind_some, ht]⟩

/-- A connection of a clean graph carries a type, or its output is missing. -/
theorem exists_sourceType? (hc : c ∈ g.connections) :
    ∃ result, sourceType? catalog settings g c = some result := by
  rw [sourceType?]
  rcases (hg.connections c hc).source with hvirtual | hknown
  · exact ⟨_, if_pos hvirtual⟩
  · obtain ⟨t, ht⟩ := hg.exists_nodeType? hknown
    rw [ht]
    split
    · exact ⟨_, rfl⟩
    · exact ⟨_, rfl⟩

/-- **Where the types are checked without a problem, every connection is typed**: it reads an output
of some type, its target is of a known type, and the one may go into the other. -/
theorem typed_of_checkTypes (h : checkTypes catalog settings g = []) (hc : c ∈ g.connections) :
    ∃ type t target, sourceType? catalog settings g c = some (.ok type) ∧
      g.nodeType? catalog c.targetId = some t ∧ c.target? = some target ∧
      checkTarget c type t target = [] := by
  obtain ⟨target, htarget⟩ := (hg.connections c hc).ends
  obtain ⟨t, ht⟩ := hg.exists_nodeType? (hg.connections c hc).target
  obtain ⟨result, hresult⟩ := hg.exists_sourceType? hc
  have hcheck := List.flatMap_eq_nil_iff.1 h c hc
  rw [checkConnectionTypes, htarget, ht, hresult] at hcheck
  cases result with
  | error problem => cases hcheck
  | ok type => exact ⟨type, t, target, hresult, ht, htarget, hcheck⟩

/-- Only one connection goes into an input. -/
theorem eq_of_endsAt {d : Connection} {id : String} {target : Target} (hc : c ∈ g.connections)
    (hd : d ∈ g.connections) (hcends : c.endsAt id target = true)
    (hdends : d.endsAt id target = true) : c = d := by
  simp only [Connection.endsAt, Bool.and_eq_true, beq_iff_eq] at hcends hdends
  by_contra hne
  have hapart : Apart c d := hg.apart.forall hc hd hne
  exact hapart target target hcends.2 hdends.2 (by rw [hcends.1, hdends.1])

end CleanGraph

/-- The type of a value from a node is that of an output of the node. -/
theorem exists_output_of_sourceType? {c : Connection} {type : ValueType}
    (hreal : settings.isVirtual c.sourceId = false)
    (h : sourceType? catalog settings g c = some (.ok type)) :
    ∃ t port, g.nodeType? catalog c.sourceId = some t ∧ t.output? c.sourcePort = some port ∧
      port.type = type := by
  rw [sourceType?, if_neg (by simp [hreal])] at h
  obtain ⟨t, ht, hport⟩ := Option.map_eq_some_iff.1 h
  split at hport
  · rename_i port hfound
    exact ⟨t, port, ht, hfound, Except.ok.inj hport⟩
  · cases hport

theorem sourceType?_of_isVirtual {c : Connection} (h : settings.isVirtual c.sourceId = true) :
    sourceType? catalog settings g c = some (.ok .float) :=
  if_pos h

/-- A value that goes into a port widens to it. -/
theorem widensTo_of_checkTarget {c : Connection} {type : ValueType} {t : NodeType} {name : String}
    (h : checkTarget c type t (.port name) = []) :
    ∃ port, t.input? name = some port ∧ type.widensTo port.type = true := by
  simp only [checkTarget] at h
  split at h
  · cases h
  · rename_i port hport
    refine ⟨port, hport, ?_⟩
    split at h
    · assumption
    · cases h

end ShaderGraph
