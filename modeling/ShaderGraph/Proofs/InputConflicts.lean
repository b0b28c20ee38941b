import ShaderGraph.Proofs.CleanChecks
import Mathlib.Data.List.Induction

/-!
# Conflicts between inputs

The check reports a connection into an input that an earlier connection has taken. It tells inputs
apart by one text for each: the id of the node, a mark for ports or for parameters, and the name of
the port or parameter. An id may itself hold a mark, and then the texts of inputs of different nodes
are the same exactly if the id of the one goes on with what stands behind the id of the other
(`inputKey_eq_inputKey_iff`).

So the reports are right, for every connection, exactly if no two inputs overlap in this way. They
do not if no connection ends at an id with a colon.
-/

namespace ShaderGraph

/-! ## Texts that stand for inputs -/

/-- What stands for an input behind the id of its node. -/
def Target.marked : Target → String
  | .port name => ":port:" ++ name
  | .parameter name => ":param:" ++ name

theorem inputKey_eq (nodeId : String) (target : Target) :
    inputKey nodeId target = nodeId ++ target.marked := by
  cases target <;> exact String.append_assoc

theorem Target.marked_injective {s t : Target} (h : s.marked = t.marked) : s = t := by
  rw [← String.toList_inj] at h
  cases s <;> cases t <;> simp [marked, String.toList_append, String.toList_inj] at h <;> rw [h]

/-- A colon stands at the front. -/
theorem Target.exists_marked (t : Target) : ∃ rest, t.marked.toList = ':' :: rest := by
  cases t <;> exact ⟨_, by rw [marked, String.toList_append]; rfl⟩

/-- The id of the second input is that of the first and goes on with what stands behind that; the
rest of that stands behind the id of the second. -/
def Target.Overlap (a : String) (s : Target) (b : String) (t : Target) : Prop :=
  ∃ shared, shared ≠ "" ∧ b = a ++ shared ∧ s.marked = shared ++ t.marked

section Keys

variable {a b : String} {s t : Target}

theorem Target.Overlap.inputKey_eq (h : Target.Overlap a s b t) : inputKey a s = inputKey b t := by
  obtain ⟨shared, -, rfl, hmarked⟩ := h
  rw [ShaderGraph.inputKey_eq, ShaderGraph.inputKey_eq, hmarked, String.append_assoc]

theorem Target.Overlap.ne (h : Target.Overlap a s b t) : a ≠ b := by
  obtain ⟨shared, hne, rfl, -⟩ := h
  intro heq
  have hchars := congrArg String.toList heq
  rw [String.toList_append, List.self_eq_append_right] at hchars
  exact hne (String.toList_inj.1 hchars)

/-- The id that goes on has a colon. -/
theorem Target.Overlap.colon_mem (h : Target.Overlap a s b t) : ':' ∈ b.toList := by
  obtain ⟨shared, hne, rfl, hmarked⟩ := h
  obtain ⟨rest, hrest⟩ := s.exists_marked
  rw [← String.toList_inj, String.toList_append, hrest] at hmarked
  rw [String.toList_append]
  refine List.mem_append_right _ ?_
  cases hshared : shared.toList with
  | nil => exact absurd (String.toList_inj.1 hshared) hne
  | cons c more =>
    rw [hshared, List.cons_append] at hmarked
    rw [(List.cons.inj hmarked).1]
    exact List.mem_cons_self

/-- Texts of inputs that are cut at the same place, or at a later one in the second. -/
theorem eq_or_overlap {shared : List Char} (hid : b.toList = a.toList ++ shared)
    (hmarked : s.marked.toList = shared ++ t.marked.toList) :
    (a = b ∧ s = t) ∨ Target.Overlap a s b t := by
  cases shared with
  | nil =>
    rw [List.append_nil, String.toList_inj] at hid
    exact .inl ⟨hid.symm, Target.marked_injective (String.toList_inj.1 hmarked)⟩
  | cons c more =>
    refine .inr ⟨String.ofList (c :: more), fun h => ?_, ?_, ?_⟩
    · have hnil := congrArg String.toList h
      rw [String.toList_ofList] at hnil
      cases hnil
    · rw [← String.toList_inj, hid, String.toList_append, String.toList_ofList]
    · rw [← String.toList_inj, hmarked, String.toList_append, String.toList_ofList]

/-- **One text stands for two inputs exactly if they are the same or overlap.** -/
theorem inputKey_eq_inputKey_iff : inputKey a s = inputKey b t ↔
    (a = b ∧ s = t) ∨ Target.Overlap a s b t ∨ Target.Overlap b t a s := by
  constructor
  · intro h
    rw [inputKey_eq, inputKey_eq, ← String.toList_inj, String.toList_append,
      String.toList_append] at h
    rcases List.append_eq_append_iff.1 h with ⟨shared, hid, hmarked⟩ | ⟨shared, hid, hmarked⟩
    · exact (eq_or_overlap hid hmarked).imp_right .inl
    · exact (eq_or_overlap hid hmarked).imp (fun h => ⟨h.1.symm, h.2.symm⟩) .inr
  · rintro (⟨rfl, rfl⟩ | h | h)
    · rfl
    · exact h.inputKey_eq
    · exact h.inputKey_eq.symm

end Keys

/-! ## Connections into one input -/

namespace Connection

variable {a b c : Connection}

/-- Both connections go into one and the same input. -/
def SameInput (a b : Connection) : Prop :=
  a.targetId = b.targetId ∧ ∃ target, a.target? = some target ∧ b.target? = some target

/-- One text stands for the inputs of both connections. -/
def SameKey (a b : Connection) : Prop := ∃ key, a.key? = some key ∧ b.key? = some key

/-- The inputs of the connections overlap. -/
def Overlaps (a b : Connection) : Prop :=
  ∃ s t, a.target? = some s ∧ b.target? = some t ∧ Target.Overlap a.targetId s b.targetId t

theorem SameInput.symm (h : a.SameInput b) : b.SameInput a := by
  obtain ⟨hid, target, ha, hb⟩ := h
  exact ⟨hid.symm, target, hb, ha⟩

theorem SameInput.trans (hab : a.SameInput b) (hbc : b.SameInput c) : a.SameInput c := by
  obtain ⟨hid, target, ha, hb⟩ := hab
  obtain ⟨hid', target', hb', hc⟩ := hbc
  rw [hb] at hb'
  exact ⟨hid.trans hid', target, ha, Option.some.inj hb' ▸ hc⟩

theorem SameKey.sameInput_self (h : a.SameKey b) : a.SameInput a := by
  obtain ⟨key, ha, -⟩ := h
  obtain ⟨target, htarget, -⟩ := Option.map_eq_some_iff.1 ha
  exact ⟨rfl, target, htarget, htarget⟩

theorem SameKey.symm (h : a.SameKey b) : b.SameKey a := by
  obtain ⟨key, ha, hb⟩ := h
  exact ⟨key, hb, ha⟩

theorem SameKey.trans (hab : a.SameKey b) (hbc : b.SameKey c) : a.SameKey c := by
  obtain ⟨key, ha, hb⟩ := hab
  obtain ⟨key', hb', hc⟩ := hbc
  rw [hb] at hb'
  exact ⟨key, ha, Option.some.inj hb' ▸ hc⟩

theorem SameInput.sameKey (h : a.SameInput b) : a.SameKey b := by
  obtain ⟨hid, target, ha, hb⟩ := h
  exact ⟨inputKey a.targetId target, by rw [key?, ha, Option.map_some],
    by rw [key?, hb, Option.map_some, hid]⟩

/-- **One text for two connections** means one input, or inputs that overlap. -/
theorem sameKey_iff : a.SameKey b ↔ a.SameInput b ∨ a.Overlaps b ∨ b.Overlaps a := by
  constructor
  · rintro ⟨key, ha, hb⟩
    obtain ⟨s, hs, rfl⟩ := Option.map_eq_some_iff.1 ha
    obtain ⟨t, ht, heq⟩ := Option.map_eq_some_iff.1 hb
    rcases inputKey_eq_inputKey_iff.1 heq.symm with ⟨hid, rfl⟩ | h | h
    · exact .inl ⟨hid, s, hs, ht⟩
    · exact .inr (.inl ⟨s, t, hs, ht, h⟩)
    · exact .inr (.inr ⟨t, s, ht, hs, h⟩)
  · rintro (h | ⟨s, t, hs, ht, h⟩ | ⟨t, s, ht, hs, h⟩)
    · exact h.sameKey
    · exact ⟨_, by rw [key?, hs, Option.map_some], by rw [key?, ht, Option.map_some, h.inputKey_eq]⟩
    · exact ⟨_, by rw [key?, hs, Option.map_some, ← h.inputKey_eq],
        by rw [key?, ht, Option.map_some]⟩

theorem Overlaps.not_sameInput (h : a.Overlaps b) : ¬ a.SameInput b := by
  obtain ⟨s, t, -, -, hoverlap⟩ := h
  exact fun hsame => hoverlap.ne hsame.1

/-- The connection that a connection is reported against: the last before it under its key. -/
def rival? (c : Connection) (before : List Connection) : Option Connection :=
  c.key?.bind fun key => lastInto? key before

theorem rival?_eq_some {before : List Connection} (h : c.rival? before = some b) :
    b ∈ before ∧ b.SameKey c := by
  obtain ⟨key, hkey, hlast⟩ := Option.bind_eq_some_iff.1 h
  have hb : b.key? = some key := by simpa using List.find?_some hlast
  exact ⟨List.mem_reverse.1 (List.mem_of_find?_eq_some hlast), key, hb, hkey⟩

theorem exists_rival? {before : List Connection} (hb : b ∈ before) (h : b.SameKey c) :
    ∃ rival, c.rival? before = some rival := by
  obtain ⟨key, hkey, hc⟩ := h
  rw [rival?, hc, Option.bind_some, ← Option.isSome_iff_exists, ← Option.ne_none_iff_isSome]
  exact fun hnone => lastInto?_eq_none_iff.1 hnone b hb hkey

end Connection

/-! ## Reports -/

/-- Whether a problem is a conflict between connections. -/
def Problem.isConflict : Problem → Bool
  | .inputShared _ _ _ => true
  | _ => false

/-- What is reported on a connection into an input that is taken. -/
def conflictReport (before : List Connection) (c : Connection) : List Problem :=
  ((c.rival? before).map fun b => .inputShared b.id c.id c.targetId).toList

section Reports

variable {catalog : Catalog} {settings : Settings} {g : Graph}

theorem filter_reportIf (test : Bool) (problem : Problem) :
    (reportIf test problem).filter Problem.isConflict
      = if problem.isConflict then reportIf test problem else [] := by
  cases test <;> cases h : problem.isConflict <;> simp [reportIf, h]

theorem filter_checkHeader (g : Graph) : (checkHeader g).filter Problem.isConflict = [] := by
  simp [checkHeader, filter_reportIf, Problem.isConflict]

theorem filter_nodeReport (before : List Node) (n : Node) :
    (nodeReport catalog settings before n).filter Problem.isConflict = [] := by
  rw [nodeReport]
  split
  · rfl
  · rw [checkNode]
    split <;> simp [filter_reportIf, Problem.isConflict]

theorem filter_laneReport (before : List (Lane Float)) (lane : Lane Float) :
    (laneReport catalog g before lane).filter Problem.isConflict = [] := by
  rw [laneReport]
  split
  · rfl
  · simp [filter_reportIf, Problem.isConflict, List.filter_flatMap, checkRegion]

theorem filter_checkEnds (known seen : List String) (c : Connection) :
    (checkEnds settings known seen c).filter Problem.isConflict = [] := by
  rw [checkEnds]
  split <;> split <;> simp [filter_reportIf, Problem.isConflict]

/-- The conflicts among what is reported on a connection. -/
theorem filter_connectionReport (known : List String) (before : List Connection) (c : Connection) :
    (connectionReport settings known before c).filter Problem.isConflict
      = conflictReport before c := by
  rw [connectionReport, List.filter_append, filter_checkEnds, List.nil_append, targetReport,
    conflictReport, Connection.rival?]
  cases c.key? with
  | none =>
    dsimp only
    split <;> rfl
  | some key =>
    dsimp only [Option.bind_some]
    cases lastInto? key before with
    | none => rfl
    | some b => rfl

/-- **The conflicts that the check reports** are those of the connections in turn. -/
theorem filter_checkStructure (catalog : Catalog) (settings : Settings) (g : Graph) :
    (checkStructure catalog settings g).filter Problem.isConflict
      = reportEach conflictReport [] g.connections := by
  have hnodes : (checkNodes catalog settings [] g.nodes).filter Problem.isConflict = [] := by
    rw [checkNodes_eq, filter_reportEach]
    exact reportEach_eq_nil filter_nodeReport _ _
  have hlanes : (checkLanes catalog g [] g.lanes).filter Problem.isConflict = [] := by
    rw [checkLanes_eq, filter_reportEach]
    exact reportEach_eq_nil filter_laneReport _ _
  rw [checkStructure, List.filter_append, List.filter_append, List.filter_append,
    filter_checkHeader, hnodes, hlanes, checkConnections_eq, filter_reportEach]
  simp only [filter_connectionReport, List.nil_append, List.append_nil]

end Reports

/-! ## When the reports are right -/

/-- A conflict is reported exactly for the connections into an input that an earlier one goes into,
and against such a one. -/
def ConflictsExact (connections : List Connection) : Prop :=
  ∀ before c after, connections = before ++ c :: after →
    ((∃ b, c.rival? before = some b) ↔ ∃ b ∈ before, b.SameInput c) ∧
    ∀ b, c.rival? before = some b → b.SameInput c

theorem ConflictsExact.of_append {x y : List Connection} (h : ConflictsExact (x ++ y)) :
    ConflictsExact x := by
  intro before c after heq
  exact h before c (after ++ y) (by rw [heq, List.append_assoc, List.cons_append])

/-- Where the reports are right, one text never stands for two inputs. -/
theorem ConflictsExact.sameInput {connections : List Connection} (h : ConflictsExact connections) :
    ∀ a ∈ connections, ∀ b ∈ connections, a.SameKey b → a.SameInput b := by
  -- a connection is compared with all before it once these are known not to be confused
  induction connections using List.reverseRecOn with
  | nil => simp
  | append_singleton before c ih =>
    have hbefore := ih h.of_append
    have hlast : ∀ a ∈ before, a.SameKey c → a.SameInput c := by
      intro a ha hkey
      obtain ⟨rival, hrival⟩ := Connection.exists_rival? ha hkey
      obtain ⟨hmem, hsame⟩ := Connection.rival?_eq_some hrival
      have hinput : rival.SameInput c := (h before c [] rfl).2 rival hrival
      exact (hbefore a ha rival hmem (hkey.trans hsame.symm)).trans hinput
    intro a ha b hb hkey
    rw [List.mem_append, List.mem_singleton] at ha hb
    rcases ha with ha | rfl <;> rcases hb with hb | rfl
    · exact hbefore a ha b hb hkey
    · exact hlast a ha hkey
    · exact (hlast b hb hkey.symm).symm
    · exact hkey.sameInput_self

theorem conflictsExact_of_sameInput {connections : List Connection}
    (h : ∀ a ∈ connections, ∀ b ∈ connections, a.SameKey b → a.SameInput b) :
    ConflictsExact connections := by
  rintro before c after rfl
  have hrival : ∀ b, c.rival? before = some b → b ∈ before ∧ b.SameInput c := by
    intro b hb
    obtain ⟨hmem, hkey⟩ := Connection.rival?_eq_some hb
    exact ⟨hmem, h b (List.mem_append_left _ hmem) c (by simp) hkey⟩
  refine ⟨⟨fun hsome => ?_, fun hsame => ?_⟩, fun b hb => (hrival b hb).2⟩
  · obtain ⟨b, hb⟩ := hsome
    exact ⟨b, hrival b hb⟩
  · obtain ⟨b, hb, hinput⟩ := hsame
    exact Connection.exists_rival? hb hinput.sameKey

theorem conflictsExact_iff {connections : List Connection} : ConflictsExact connections ↔
    ∀ a ∈ connections, ∀ b ∈ connections, ¬ a.Overlaps b := by
  constructor
  · intro h a ha b hb hoverlaps
    exact hoverlaps.not_sameInput
      (h.sameInput a ha b hb (Connection.sameKey_iff.2 (.inr (.inl hoverlaps))))
  · intro h
    refine conflictsExact_of_sameInput fun a ha b hb hkey => ?_
    rcases Connection.sameKey_iff.1 hkey with hsame | hoverlaps | hoverlaps
    · exact hsame
    · exact absurd hoverlaps (h a ha b hb)
    · exact absurd hoverlaps (h b hb a ha)

/-- **Conflicts are reported rightly exactly if no inputs overlap.** For every graph, the conflicts
among the problems of its structure are those of its connections in turn, at most one for each. They
are exactly those of connections into an input that an earlier connection goes into, each against
such a one, exactly if no two connections have inputs that overlap: the id of the one goes on with
what stands behind the id of the other. They do not if no connection ends at an id with a colon. -/
theorem input_conflicts_iff (catalog : Catalog) (settings : Settings) (g : Graph) :
    (checkStructure catalog settings g).filter Problem.isConflict
      = reportEach conflictReport [] g.connections ∧
    (ConflictsExact g.connections ↔
      ∀ a ∈ g.connections, ∀ b ∈ g.connections, ¬ a.Overlaps b) ∧
    ((∀ c ∈ g.connections, ':' ∉ c.targetId.toList) → ConflictsExact g.connections) := by
  refine ⟨filter_checkStructure catalog settings g, conflictsExact_iff, fun hcolon => ?_⟩
  refine conflictsExact_iff.2 fun a ha b hb hoverlaps => ?_
  obtain ⟨s, t, -, -, hoverlap⟩ := hoverlaps
  exact hcolon b hb hoverlap.colon_mem

/-- The types of a light and of a node with two inputs. -/
def Catalog.patchbay : Catalog := .ofList
  [(NodeType.bare "lamp" "source").withOutput (.plain "y" .float),
    ((NodeType.bare "mixer" "tool").withInput (.plain "c" .float)).withInput
      (.plain "b:port:c" .float)]

/-- A graph in which a light goes into one input of each of two nodes. -/
def Graph.patchbay : Graph where
  id := "patchbay"
  name := "patchbay"
  version := formatVersion
  nodes := [.bare "l" "lamp", .bare "a" "mixer", .bare "a:port:b" "mixer"]
  connections := [.between "1" ("l", "y") "a" (.port "b:port:c"),
    .between "2" ("l", "y") "a:port:b" (.port "c")]
  lanes := []

/-- The two inputs are taken for one. -/
theorem inputs_confused :
    checkStructure .patchbay {} .patchbay = [.inputShared "1" "2" "a:port:b"] ∧
    checkTypes .patchbay {} .patchbay = [] ∧
    ¬ ConflictsExact Graph.patchbay.connections := by
  refine ⟨by decide +kernel, by decide +kernel, fun hexact => ?_⟩
  have hrival : (Connection.between "2" ("l", "y") "a:port:b" (.port "c")).rival?
      [.between "1" ("l", "y") "a" (.port "b:port:c")]
        = some (.between "1" ("l", "y") "a" (.port "b:port:c")) := by decide +kernel
  have hsame := (hexact _ _ [] rfl).2 _ hrival
  exact absurd hsame.1 (by decide)

end ShaderGraph
