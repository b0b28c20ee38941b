import ShaderGraph.Check.Structure

/-!
# The passes of the check

The check of the structure goes through the nodes, the connections and the lanes once each and
remembers ids, inputs and parameters on its way. What it reports at a place is a matter of the
element there and of those before it, whatever is remembered of them: each pass is `reportEach` with
a report of its own, and so it reports nothing exactly if no element is at fault by itself and no
two of them are at fault together (`reportEach_eq_nil_iff`).
-/

namespace ShaderGraph

/-! ## Reports in turn -/

section Turns

variable {α : Type} {report : List α → α → List Problem}

/-- What is reported on the elements of a list, on each in view of those before it. -/
def reportEach (report : List α → α → List Problem) (before : List α) : List α → List Problem
  | [] => []
  | a :: rest => report before a ++ reportEach report (before ++ [a]) rest

theorem reportEach_eq_nil (h : ∀ before a, report before a = []) (before items : List α) :
    reportEach report before items = [] := by
  induction items generalizing before with
  | nil => rfl
  | cons a rest ih => rw [reportEach, h, ih, List.append_nil]

theorem filter_reportEach (keep : Problem → Bool) (before items : List α) :
    (reportEach report before items).filter keep
      = reportEach (fun before a => (report before a).filter keep) before items := by
  induction items generalizing before with
  | nil => rfl
  | cons a rest ih => rw [reportEach, reportEach, List.filter_append, ih]

/-- A pass behind some elements compares with these as well. -/
theorem reportEach_eq_nil_iff_behind {fine : α → Prop} {apart : α → α → Prop}
    (h : ∀ before a, report before a = [] ↔ fine a ∧ ∀ b ∈ before, apart b a)
    {before items : List α} : reportEach report before items = [] ↔
      (∀ a ∈ items, fine a) ∧ items.Pairwise apart ∧ ∀ b ∈ before, ∀ a ∈ items, apart b a := by
  induction items generalizing before with
  | nil => simp [reportEach]
  | cons x rest ih =>
    rw [reportEach, List.append_eq_nil_iff, h, ih]
    simp only [List.forall_mem_cons, List.pairwise_cons, List.forall_mem_append, List.not_mem_nil,
      false_implies, implies_true, and_true]
    constructor
    · rintro ⟨⟨hx, hbefore⟩, hfine, hapart, hrest, hlater⟩
      exact ⟨⟨hx, hfine⟩, ⟨hlater, hapart⟩, fun b hb => ⟨hbefore b hb, hrest b hb⟩⟩
    · rintro ⟨⟨hx, hfine⟩, ⟨hlater, hapart⟩, hbefore⟩
      exact ⟨⟨hx, fun b hb => (hbefore b hb).1⟩, hfine, hapart, fun b hb => (hbefore b hb).2,
        hlater⟩

/-- **A pass reports nothing exactly if no element and no two elements are at fault.** -/
theorem reportEach_eq_nil_iff {fine : α → Prop} {apart : α → α → Prop}
    (h : ∀ before a, report before a = [] ↔ fine a ∧ ∀ b ∈ before, apart b a) {items : List α} :
    reportEach report [] items = [] ↔ (∀ a ∈ items, fine a) ∧ items.Pairwise apart := by
  rw [reportEach_eq_nil_iff_behind h]
  simp

end Turns

variable {catalog : Catalog} {settings : Settings} {g : Graph}

/-! ## Nodes -/

/-- What is reported on a node. -/
def nodeReport (catalog : Catalog) (settings : Settings) (before : List Node) (n : Node) :
    List Problem :=
  if Text.isBlankText n.id then [.nodeWithoutId]
  else checkNode catalog settings (before.map (·.id)) n

/-- Of the ids that were seen only membership counts. -/
theorem checkNode_congr {seen seen' : List String} {n : Node} (h : n.id ∈ seen ↔ n.id ∈ seen') :
    checkNode catalog settings seen n = checkNode catalog settings seen' n := by
  have hcontains : seen.contains n.id = seen'.contains n.id := by
    rw [Bool.eq_iff_iff, List.contains_iff_mem, List.contains_iff_mem, h]
  rw [checkNode, checkNode, hcontains]

theorem checkNodes_eq_behind {before nodes : List Node} {seen : List String}
    (hseen : ∀ id, Text.isBlankText id = false → (id ∈ seen ↔ id ∈ before.map (·.id))) :
    checkNodes catalog settings seen nodes
      = reportEach (nodeReport catalog settings) before nodes := by
  induction nodes generalizing before seen with
  | nil => rfl
  | cons n rest ih =>
    rw [checkNodes, reportEach, nodeReport]
    split
    · rename_i hblank
      -- a blank id is not remembered, and nobody asks for it
      rw [ih fun id hid => ?_, List.singleton_append]
      have hne : id ≠ n.id := by
        rintro rfl
        rw [hblank] at hid
        cases hid
      simp [hseen id hid, hne]
    · rename_i hnamed
      rw [checkNode_congr (hseen n.id (by simpa using hnamed)), ih fun id hid => ?_]
      simp only [List.mem_cons, List.map_append, List.mem_append, hseen id hid, List.map_cons,
        List.map_nil, List.not_mem_nil, or_false]
      exact or_comm

theorem checkNodes_eq (nodes : List Node) :
    checkNodes catalog settings [] nodes = reportEach (nodeReport catalog settings) [] nodes :=
  checkNodes_eq_behind fun _ _ => Iff.rfl

/-! ## Connections -/

/-- What stands for the input that a connection goes into. -/
def Connection.key? (c : Connection) : Option String := c.target?.map (inputKey c.targetId)

/-- The last of some connections to take an input. -/
def lastInto? (key : String) (before : List Connection) : Option Connection :=
  before.reverse.find? fun b => b.key? == some key

/-- What is reported on the end of a connection: that its input is taken, or that it has none. -/
def targetReport (before : List Connection) (c : Connection) : List Problem :=
  match c.key? with
  | some key => ((lastInto? key before).map fun b => .inputShared b.id c.id c.targetId).toList
  | none => [if c.targetPort.isSome then .bothTargets c.id else .noTarget c.id]

/-- What is reported on a connection. -/
def connectionReport (settings : Settings) (known : List String) (before : List Connection)
    (c : Connection) : List Problem :=
  checkEnds settings known (before.map (·.id)) c ++ targetReport before c

theorem lastInto?_append_singleton (key : String) (before : List Connection) (c : Connection) :
    lastInto? key (before ++ [c]) = if c.key? = some key then some c else lastInto? key before := by
  rw [lastInto?, List.reverse_append, List.reverse_singleton, List.singleton_append,
    List.find?_cons]
  by_cases h : c.key? = some key
  · rw [if_pos h, h, beq_self_eq_true]
  · rw [if_neg h, beq_false_of_ne h]
    rfl

theorem checkEnds_congr {known seen seen' : List String} {c : Connection}
    (h : Text.isBlankText c.id = false → (c.id ∈ seen ↔ c.id ∈ seen')) :
    checkEnds settings known seen c = checkEnds settings known seen' c := by
  rw [checkEnds, checkEnds]
  split
  · rfl
  · rename_i hnamed
    have hcontains : seen.contains c.id = seen'.contains c.id := by
      rw [Bool.eq_iff_iff, List.contains_iff_mem, List.contains_iff_mem, h (by simpa using hnamed)]
    rw [hcontains]

theorem checkConnections_eq_behind {known seen : List String} {taken : List (String × String)}
    {before connections : List Connection}
    (hseen : ∀ id, Text.isBlankText id = false → (id ∈ seen ↔ id ∈ before.map (·.id)))
    (htaken : ∀ key, taken.lookup key = (lastInto? key before).map (·.id)) :
    checkConnections settings known seen taken connections
      = reportEach (connectionReport settings known) before connections := by
  induction connections generalizing before seen taken with
  | nil => rfl
  | cons c rest ih =>
    have hseen' : ∀ id, Text.isBlankText id = false →
        (id ∈ (if Text.isBlankText c.id then seen else c.id :: seen)
          ↔ id ∈ (before ++ [c]).map (·.id)) := by
      intro id hid
      rw [List.map_append, List.mem_append, ← hseen id hid]
      split
      · rename_i hblank
        have hne : id ≠ c.id := by
          rintro rfl
          rw [hblank] at hid
          cases hid
        simp [hne]
      · simp [or_comm]
    rw [checkConnections, reportEach, connectionReport, checkEnds_congr (hseen c.id),
      List.append_assoc, List.append_cancel_left_eq, targetReport, Connection.key?]
    cases htarget : c.target? with
    | none =>
      have hkey : c.key? = none := by rw [Connection.key?, htarget, Option.map_none]
      refine congrArg (List.cons _) (ih hseen' fun key => ?_)
      rw [htaken, lastInto?_append_singleton, hkey, if_neg (by simp)]
    | some target =>
      have hkey : c.key? = some (inputKey c.targetId target) := by
        rw [Connection.key?, htarget, Option.map_some]
      refine congr (congrArg HAppend.hAppend ?_) (ih hseen' fun key => ?_)
      · rw [htaken]
        dsimp only [Option.map_some]
        cases lastInto? (inputKey c.targetId target) before with
        | none => rfl
        | some b => rfl
      · rw [lookup_cons, lastInto?_append_singleton, hkey, htaken]
        by_cases heq : key = inputKey c.targetId target
        · rw [if_pos heq, if_pos (by rw [heq]), Option.map_some]
        · rw [if_neg heq, if_neg (by simpa using Ne.symm heq)]

theorem checkConnections_eq (known : List String) (connections : List Connection) :
    checkConnections settings known [] [] connections
      = reportEach (connectionReport settings known) [] connections :=
  checkConnections_eq_behind (fun _ _ => Iff.rfl) fun _ => rfl

/-! ## Lanes -/

/-- The parameter that a lane drives, with its node. -/
def Lane.place (lane : Lane Float) : String × String := (lane.nodeId, lane.paramName)

/-- What is reported on a lane. -/
def laneReport (catalog : Catalog) (g : Graph) (before : List (Lane Float)) (lane : Lane Float) :
    List Problem :=
  match g.node? lane.nodeId with
  | none => [.laneWithoutNode lane.id lane.nodeId]
  | some node =>
    reportIf ((catalog.find? node.type).any fun t => !hasFloat t lane.paramName)
        (.laneOfNoFloat lane.id lane.nodeId lane.paramName)
      ++ reportIf ((before.map Lane.place).contains lane.place)
          (.laneRepeated lane.nodeId lane.paramName)
      ++ lane.regions.zipIdx.flatMap (fun r => checkRegion lane.id r.1 r.2)

theorem checkLanes_eq_behind {bound : List (String × String)} {before lanes : List (Lane Float)}
    (hbound : ∀ place, (g.node? place.1).isSome = true →
      (place ∈ bound ↔ place ∈ before.map Lane.place)) :
    checkLanes catalog g bound lanes = reportEach (laneReport catalog g) before lanes := by
  induction lanes generalizing bound before with
  | nil => rfl
  | cons lane rest ih =>
    rw [checkLanes, reportEach, laneReport]
    cases hnode : g.node? lane.nodeId with
    | none =>
      -- a lane of no node is not remembered, and nobody asks for it
      refine congrArg (List.cons _) (ih fun place hplace => ?_)
      have hne : place ≠ lane.place := by
        rintro rfl
        rw [show lane.place.1 = lane.nodeId from rfl, hnode] at hplace
        cases hplace
      simp [hbound place hplace, hne]
    | some node =>
      have hsome : (g.node? lane.place.1).isSome = true := Option.isSome_iff_exists.2 ⟨node, hnode⟩
      have hcontains : bound.contains (lane.nodeId, lane.paramName)
          = (before.map Lane.place).contains lane.place := by
        rw [Bool.eq_iff_iff, List.contains_iff_mem, List.contains_iff_mem]
        exact hbound lane.place hsome
      refine congr (congrArg HAppend.hAppend (by rw [hcontains])) (ih fun place hplace => ?_)
      rw [List.mem_cons, hbound place hplace, List.map_append, List.mem_append, or_comm]
      exact or_congr_right List.mem_singleton.symm

theorem checkLanes_eq (lanes : List (Lane Float)) :
    checkLanes catalog g [] lanes = reportEach (laneReport catalog g) [] lanes :=
  checkLanes_eq_behind fun _ _ => Iff.rfl

end ShaderGraph
