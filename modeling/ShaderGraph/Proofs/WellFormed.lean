import ShaderGraph.Proofs.CleanChecks

/-!
# Well-formed graphs

`Graph.WellFormed` lists the invariants of a graph, each of them a statement about the graph and not
about the check: its header is filled in, its nodes, connections and lanes have names and places of
their own, and whatever they refer to is there. A graph on which the check of the structure reports
nothing has them all.

The check asks for little more (`Graph.WellSpelled`). A type and the output that a connection reads
are to have a name, and connections are kept apart by what stands for their inputs, not by the
inputs themselves.
-/

namespace ShaderGraph

variable {catalog : Catalog} {settings : Settings} {g : Graph}

/-! ## The invariants -/

/-- The connections do not go into the same port, nor into the same parameter, of one node. -/
def Connection.Separate (a b : Connection) : Prop :=
  a.targetId = b.targetId → (∀ name, a.targetPort = some name → b.targetPort ≠ some name) ∧
    ∀ name, a.targetParameter = some name → b.targetParameter ≠ some name

/-- A node of the graph has a float parameter. -/
def Graph.HasFloatAt (catalog : Catalog) (g : Graph) (nodeId paramName : String) : Prop :=
  ∃ n ∈ g.nodes, n.id = nodeId ∧ ∃ t, catalog.find? n.type = some t ∧
    ∃ param, t.param? paramName = some param ∧ param.kind = .float

/-- The invariants of a graph. -/
structure Graph.WellFormed (catalog : Catalog) (settings : Settings) (g : Graph) : Prop where
  id : Text.isBlankText g.id = false
  name : Text.isBlankText g.name = false
  version : g.version = formatVersion
  nodeNamed : ∀ n ∈ g.nodes, Text.isBlankText n.id = false
  nodeReal : ∀ n ∈ g.nodes, settings.isVirtual n.id = false
  nodeTyped : ∀ n ∈ g.nodes, ∃ t, catalog.find? n.type = some t
  nodeIds : (g.nodes.map (·.id)).Nodup
  connectionNamed : ∀ c ∈ g.connections, Text.isBlankText c.id = false
  connectionIds : (g.connections.map (·.id)).Nodup
  source : ∀ c ∈ g.connections,
    settings.isVirtual c.sourceId = true ∨ ∃ n ∈ g.nodes, n.id = c.sourceId
  target : ∀ c ∈ g.connections, ∃ n ∈ g.nodes, n.id = c.targetId
  /-- A connection sets a port or a parameter, and not both. -/
  oneTarget : ∀ c ∈ g.connections, c.targetPort.isSome = !c.targetParameter.isSome
  inputs : g.connections.Pairwise Connection.Separate
  laneFloat : ∀ lane ∈ g.lanes, g.HasFloatAt catalog lane.nodeId lane.paramName
  lanePlaces : (g.lanes.map Lane.place).Nodup
  duration : ∀ lane ∈ g.lanes, ∀ region ∈ lane.regions, 0 < region.duration
  keys : ∀ lane ∈ g.lanes, ∀ region ∈ lane.regions, ∀ key ∈ region.curve.keys,
    0.0 ≤ key.time ∧ key.time ≤ 1.0

/-- What the check asks for besides. -/
structure Graph.WellSpelled (g : Graph) : Prop where
  types : ∀ n ∈ g.nodes, Text.isBlankText n.type = false
  outputs : ∀ c ∈ g.connections, Text.isBlankText c.sourcePort = false
  apart : g.connections.Pairwise Apart

/-! ## Header -/

theorem checkHeader_eq_nil_iff : checkHeader g = [] ↔ Text.isBlankText g.id = false ∧
    Text.isBlankText g.name = false ∧ g.version = Graph.formatVersion := by
  simp [checkHeader, reportIf_eq_nil]

/-! ## Connections -/

theorem exists_target?_iff {c : Connection} :
    (∃ target, c.target? = some target) ↔ c.targetPort.isSome = !c.targetParameter.isSome := by
  rw [Connection.target?]
  cases c.targetPort <;> cases c.targetParameter <;> simp

section OneTarget

variable {a b c : Connection} {name : String}

theorem target?_of_targetPort (h : c.targetPort.isSome = !c.targetParameter.isSome)
    (hname : c.targetPort = some name) : c.target? = some (.port name) := by
  cases hparameter : c.targetParameter with
  | none => rw [Connection.target?, hname, hparameter]
  | some other =>
    rw [hname, hparameter] at h
    cases h

theorem target?_of_targetParameter (h : c.targetPort.isSome = !c.targetParameter.isSome)
    (hname : c.targetParameter = some name) : c.target? = some (.parameter name) := by
  cases hport : c.targetPort with
  | none => rw [Connection.target?, hname, hport]
  | some other =>
    rw [hname, hport] at h
    cases h

/-- What stands for their inputs keeps connections separate. -/
theorem Apart.separate (h : Apart a b) (ha : a.targetPort.isSome = !a.targetParameter.isSome)
    (hb : b.targetPort.isSome = !b.targetParameter.isSome) : a.Separate b := by
  intro hid
  constructor
  · intro name haname hbname
    exact h _ _ (target?_of_targetPort ha haname) (target?_of_targetPort hb hbname) (by rw [hid])
  · intro name haname hbname
    exact h _ _ (target?_of_targetParameter ha haname) (target?_of_targetParameter hb hbname)
      (by rw [hid])

end OneTarget

section Nodes

variable (hnamed : ∀ n ∈ g.nodes, Text.isBlankText n.id = false)

include hnamed

/-- Where all nodes have ids, the known ids are those of the nodes. -/
theorem mem_knownIds_iff {id : String} : id ∈ knownIds g ↔ ∃ n ∈ g.nodes, n.id = id := by
  rw [knownIds, List.mem_filter, List.mem_map]
  refine and_iff_left_of_imp ?_
  rintro ⟨n, hn, rfl⟩
  rw [hnamed n hn, Bool.not_false]

/-- Where no node is virtual, the end of a connection is not. -/
theorem cleanConnection_iff (hreal : ∀ n ∈ g.nodes, settings.isVirtual n.id = false)
    {c : Connection} : CleanConnection settings (knownIds g) c ↔
      Text.isBlankText c.id = false ∧ Text.isBlankText c.sourcePort = false ∧
      (settings.isVirtual c.sourceId = true ∨ ∃ n ∈ g.nodes, n.id = c.sourceId) ∧
      (∃ n ∈ g.nodes, n.id = c.targetId) ∧ c.targetPort.isSome = !c.targetParameter.isSome := by
  rw [← mem_knownIds_iff hnamed, ← mem_knownIds_iff hnamed, ← exists_target?_iff]
  constructor
  · intro h
    exact ⟨h.named, h.output, h.source, h.target, h.ends⟩
  · rintro ⟨hid, houtput, hsource, htarget, hends⟩
    obtain ⟨n, hn, heq⟩ := (mem_knownIds_iff hnamed).1 htarget
    exact ⟨hid, houtput, hsource, heq ▸ hreal n hn, htarget, hends⟩

end Nodes

/-! ## Lanes -/

theorem checkRegion_eq_nil_iff {laneId : String} {region : Region Float} {index : Nat} :
    checkRegion laneId region index = [] ↔
      0 < region.duration ∧ ∀ key ∈ region.curve.keys, 0.0 ≤ key.time ∧ key.time ≤ 1.0 := by
  have hduration : region.hasDuration = true ↔ 0 < region.duration := decide_eq_true_iff
  rw [checkRegion, List.append_eq_nil_iff, reportIf_eq_nil, reportIf_eq_nil, Bool.not_eq_false',
    Bool.not_eq_false', hduration, List.all_eq_true]
  simp only [isOnUnit, Bool.and_eq_true, decide_eq_true_iff]

/-- Nothing is reported on the regions of a lane exactly if nothing is on any of them. -/
theorem checkRegions_eq_nil_iff {laneId : String} {regions : List (Region Float)} :
    regions.zipIdx.flatMap (fun r => checkRegion laneId r.1 r.2) = [] ↔
      ∀ region ∈ regions, 0 < region.duration ∧
        ∀ key ∈ region.curve.keys, 0.0 ≤ key.time ∧ key.time ≤ 1.0 := by
  simp only [List.flatMap_eq_nil_iff, checkRegion_eq_nil_iff]
  constructor
  · intro h region hregion
    obtain ⟨i, hi, rfl⟩ := List.mem_iff_getElem.1 hregion
    exact h (regions[i], i) (List.mk_mem_zipIdx_iff_getElem?.2 (List.getElem?_eq_getElem hi))
  · intro h r hr
    exact h r.1 (List.fst_mem_of_mem_zipIdx hr)

/-- The node of a lane is there, and if its type is known the parameter is a float. -/
def FineLane (catalog : Catalog) (g : Graph) (lane : Lane Float) : Prop :=
  (∃ n, g.node? lane.nodeId = some n ∧
    ∀ t, catalog.find? n.type = some t → hasFloat t lane.paramName = true) ∧
  ∀ region ∈ lane.regions, 0 < region.duration ∧
    ∀ key ∈ region.curve.keys, 0.0 ≤ key.time ∧ key.time ≤ 1.0

theorem laneReport_eq_nil_iff (before : List (Lane Float)) (lane : Lane Float) :
    laneReport catalog g before lane = [] ↔
      FineLane catalog g lane ∧ ∀ b ∈ before, b.place ≠ lane.place := by
  rw [laneReport, FineLane]
  cases hnode : g.node? lane.nodeId with
  | none => simp
  | some n =>
    have hfloat : ((catalog.find? n.type).any fun t => !hasFloat t lane.paramName) = false ↔
        ∀ t, catalog.find? n.type = some t → hasFloat t lane.paramName = true := by
      cases catalog.find? n.type <;> simp
    simp only [List.append_eq_nil_iff, reportIf_eq_nil, hfloat, checkRegions_eq_nil_iff,
      Option.some.injEq, exists_eq_left', List.contains_eq_mem, decide_eq_false_iff_not,
      List.mem_map, not_exists, not_and]
    exact and_right_comm

theorem checkLanes_eq_nil_iff {lanes : List (Lane Float)} : checkLanes catalog g [] lanes = [] ↔
    (∀ lane ∈ lanes, FineLane catalog g lane) ∧ (lanes.map Lane.place).Nodup := by
  rw [checkLanes_eq, List.Nodup, List.pairwise_map]
  exact reportEach_eq_nil_iff laneReport_eq_nil_iff

theorem hasFloatAt_iff {t : NodeType} {name : String} :
    hasFloat t name = true ↔ ∃ param, t.param? name = some param ∧ param.kind = .float := by
  simp only [hasFloat, Option.any_eq_true, beq_iff_eq]

/-- Where nodes have types and ids of their own, a fine lane drives a float. -/
theorem fineLane_iff (htyped : ∀ n ∈ g.nodes, ∃ t, catalog.find? n.type = some t)
    (hids : (g.nodes.map (·.id)).Nodup) {lane : Lane Float} :
    FineLane catalog g lane ↔ g.HasFloatAt catalog lane.nodeId lane.paramName ∧
      ∀ region ∈ lane.regions, 0 < region.duration ∧
        ∀ key ∈ region.curve.keys, 0.0 ≤ key.time ∧ key.time ≤ 1.0 := by
  refine and_congr_left' ?_
  constructor
  · rintro ⟨n, hnode, hfloat⟩
    have hn : n ∈ g.nodes := List.mem_of_find?_eq_some hnode
    obtain ⟨t, ht⟩ := htyped n hn
    exact ⟨n, hn, by simpa using List.find?_some hnode, t, ht, hasFloatAt_iff.1 (hfloat t ht)⟩
  · rintro ⟨n, hn, hid, t, ht, hfloat⟩
    refine ⟨n, hid ▸ Graph.node?_eq_some hids hn, fun t' ht' => ?_⟩
    obtain rfl : t = t' := Option.some.inj (ht.symm.trans ht')
    exact hasFloatAt_iff.2 hfloat

/-! ## Graphs -/

/-- **The check of the structure reports nothing exactly on a well-formed graph** that names its
types and outputs and whose connections go into inputs that are told apart. So whatever it passes
over or leaves unchecked after a first problem, a graph without problems has every invariant. -/
theorem structure_clean_iff (catalog : Catalog) (settings : Settings) (g : Graph) :
    checkStructure catalog settings g = [] ↔ g.WellFormed catalog settings ∧ g.WellSpelled := by
  simp only [checkStructure, List.append_eq_nil_iff, checkHeader_eq_nil_iff, checkNodes_eq_nil_iff,
    checkConnections_eq_nil_iff, checkLanes_eq_nil_iff]
  constructor
  · rintro ⟨⟨⟨⟨hid, hname, hversion⟩, hnodes, hids⟩, hconnections, hconnectionIds, hapart⟩, hlanes,
      hplaces⟩
    have hnamed : ∀ n ∈ g.nodes, Text.isBlankText n.id = false := fun n hn => (hnodes n hn).1.named
    have hreal : ∀ n ∈ g.nodes, settings.isVirtual n.id = false := fun n hn => (hnodes n hn).1.real
    have htyped : ∀ n ∈ g.nodes, ∃ t, catalog.find? n.type = some t :=
      fun n hn => (hnodes n hn).1.typed
    have hfine := fun lane hlane => (fineLane_iff htyped hids).1 (hlanes lane hlane)
    have hends := fun c hc => (cleanConnection_iff hnamed hreal).1 (hconnections c hc)
    have honeTarget := fun c hc => (hends c hc).2.2.2.2
    refine ⟨⟨hid, hname, hversion, hnamed, hreal, htyped, hids, fun c hc => (hends c hc).1,
      hconnectionIds, fun c hc => (hends c hc).2.2.1, fun c hc => (hends c hc).2.2.2.1, honeTarget,
      ?_, fun lane hlane => (hfine lane hlane).1, hplaces,
      fun lane hlane region hregion => ((hfine lane hlane).2 region hregion).1,
      fun lane hlane region hregion => ((hfine lane hlane).2 region hregion).2⟩,
      ⟨fun n hn => (hnodes n hn).2, fun c hc => (hends c hc).2.1, hapart⟩⟩
    exact hapart.imp_of_mem fun ha hb h => h.separate (honeTarget _ ha) (honeTarget _ hb)
  · rintro ⟨hg, hspelled⟩
    refine ⟨⟨⟨⟨hg.id, hg.name, hg.version⟩, fun n hn => ⟨⟨hg.nodeNamed n hn, hg.nodeReal n hn,
      hg.nodeTyped n hn⟩, hspelled.types n hn⟩, hg.nodeIds⟩, fun c hc => ?_, hg.connectionIds,
      hspelled.apart⟩, fun lane hlane => ?_, hg.lanePlaces⟩
    · exact (cleanConnection_iff hg.nodeNamed hg.nodeReal).2 ⟨hg.connectionNamed c hc,
        hspelled.outputs c hc, hg.source c hc, hg.target c hc, hg.oneTarget c hc⟩
    · exact (fineLane_iff hg.nodeTyped hg.nodeIds).2 ⟨hg.laneFloat lane hlane,
        fun region hregion => ⟨hg.duration lane hlane region hregion,
          hg.keys lane hlane region hregion⟩⟩

/-- A type of nodes whose two parameters can be driven. -/
def NodeType.tone : NodeType :=
  (((bare "tone" "source").withOutput (.plain "out" .float)).withParam "rate" (.float 1)).withParam
    "depth" (.float 0)

/-- A graph in which both parameters of a node are connected, one of them from outside, and one of
another node is automated, by a curve with keys at both ends of its region. -/
def Graph.choir : Graph where
  id := "choir"
  name := "choir"
  version := formatVersion
  nodes := [.bare "low" "tone", .bare "high" "tone"]
  connections := [.between "1" ("low", "out") "high" (.parameter "rate"),
    .between "2" ("virtual:beat", "out") "high" (.parameter "depth")]
  lanes := [⟨"swell", "low", "depth", [⟨0.5, 2.0, true, ⟨.linear, [⟨0.0, 0.25⟩, ⟨1.0, 1.0⟩]⟩⟩]⟩]

/-- Nothing is reported on it, so it is well formed. -/
theorem structure_clean_choir : checkStructure (.ofList [.tone]) {} .choir = [] ∧
    Graph.choir.WellFormed (.ofList [.tone]) {} := by
  have h : checkStructure (.ofList [.tone]) {} .choir = [] := by decide +kernel
  exact ⟨h, ((structure_clean_iff _ _ _).1 h).1⟩

end ShaderGraph
