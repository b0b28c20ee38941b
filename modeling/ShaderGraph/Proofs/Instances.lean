import ShaderGraph.Proofs.LibraryEntries
import ShaderGraph.Proofs.ConnectedInputs
import ShaderGraph.Proofs.Filling

/-!
# Functions that belong to one node

Functions that depend on their node are renamed, with the id of the node at the end of their names,
so that they stay apart from those of other nodes. The id is cleaned for that, and different ids can
come out alike. Then the later node loses its functions to the earlier one, and its calls reach the
functions of the other node.

A node keeps its functions exactly if no function that came earlier has one of their signatures and
another text, and exactly if no conflict is reported for the node. So functions can be lost, but
never without a report.
-/

namespace ShaderGraph

/-! ## Reports of conflicts -/

/-- The function and the node of a conflict. -/
def Warning.conflict? : Warning → Option (String × String)
  | .conflictingFunction function nodeId => some (function, nodeId)
  | _ => none

theorem Warning.conflict?_eq_some_iff {w : Warning} {function nodeId : String} :
    w.conflict? = some (function, nodeId) ↔ w = .conflictingFunction function nodeId := by
  cases w <;> simp [conflict?]

namespace Warned

variable {α β : Type}

/-- The conflicts among the warnings. -/
def conflicts (x : Warned α) : List (String × String) := x.warnings.filterMap Warning.conflict?

theorem mem_conflicts {x : Warned α} {function nodeId : String} :
    (function, nodeId) ∈ x.conflicts ↔
      Warning.conflictingFunction function nodeId ∈ x.warnings := by
  simp [conflicts, List.mem_filterMap, Warning.conflict?_eq_some_iff]

@[simp] theorem conflicts_bind (x : Warned α) (f : α → Warned β) :
    (x >>= f).conflicts = x.conflicts ++ (f x.value).conflicts :=
  List.filterMap_append

/-- Filling code in reports no conflict. -/
theorem Filling.conflicts_eq_nil {x : Warned α} (h : x.Filling) : x.conflicts = [] := by
  refine List.filterMap_eq_nil_iff.2 fun w hw => ?_
  have hfilling := h w hw
  cases w with
  | conflictingFunction function nodeId => cases hfilling
  | _ => rfl

end Warned

/-! ## What a turn loses -/

namespace Library

/-- Adding functions reports conflicts of their node only. -/
theorem snd_of_mem_conflicts {nodeId : String} {functions : List Glsl.Function} {lib : Library}
    {conflict : String × String} (h : conflict ∈ (addFunctions nodeId functions lib).conflicts) :
    conflict.2 = nodeId := by
  induction functions generalizing lib with
  | nil => cases h
  | cons f rest ih =>
    rw [addFunctions, Warned.conflicts_bind] at h
    rcases List.mem_append.1 h with h | h
    · rw [Warned.conflicts, warnings_addFunction] at h
      split at h
      · obtain rfl := List.mem_singleton.1 h
        rfl
      · cases h
    · exact ih h

/-- Of functions with different signatures those are in conflict that the library has others for. -/
theorem conflicts_addFunctions {functions : List Glsl.Function} (lib : Library) (nodeId : String)
    (h : (functions.map (·.signature)).Nodup) :
    (addFunctions nodeId functions lib).conflicts
      = (functions.filter lib.conflictsWith).map fun f => (f.name, nodeId) := by
  rw [Warned.conflicts, warnings_addFunctions lib nodeId h, List.filterMap_map,
    ← List.filterMap_eq_map]
  rfl

end Library

namespace Plan

variable {plan : Plan}

/-- The conflicts of a run of nodes are theirs. -/
theorem mem_of_mem_conflicts {nodes : List TypedNode} {lib : Library} {name nodeId : String}
    (h : (name, nodeId) ∈ (plan.addNodes nodes lib).conflicts) :
    nodeId ∈ nodes.map (·.node.id) := by
  induction nodes generalizing lib with
  | nil => cases h
  | cons n rest ih =>
    rw [addNodes, Warned.conflicts_bind] at h
    rcases List.mem_append.1 h with h | h
    · refine List.mem_cons.2 (Or.inl ?_)
      cases hcode : n.code? with
      | none =>
        rw [addNode_of_code?_eq_none hcode] at h
        cases h
      | some code =>
        rw [addNode_of_code? hcode, Warned.conflicts_bind,
          (plan.filling_specialise n code).conflicts_eq_nil, List.nil_append, addCode_eq] at h
        exact Library.snd_of_mem_conflicts h
    · exact List.mem_cons_of_mem _ (ih h)

namespace Turn

variable (t : plan.Turn)

/-- An earlier function stands in the place of one of the node's: it has the same signature and
another text. -/
def IsDisplaced (d : Glsl.Function) : Prop :=
  ∃ e ∈ t.earlier.functions, e.signature = d.signature ∧ e.text ≠ d.text

variable {t}

theorem isDisplaced_iff {d : Glsl.Function} :
    t.IsDisplaced d ↔ t.earlier.conflictsWith d = true := by
  rw [IsDisplaced, Library.conflictsWith, Option.any_eq_true]
  constructor
  · rintro ⟨e, he, hsignature, htext⟩
    refine ⟨e, ?_, by simpa using htext⟩
    rw [← hsignature]
    exact t.keeps_earlier.function?_eq he
  · rintro ⟨e, he, htext⟩
    exact ⟨e, Library.mem_of_function? he, Library.signature_of_function? he, by simpa using htext⟩

/-- A function is in the library unless another one stands in its place. -/
theorem mem_texts_iff (hown : (t.functions.map (·.signature)).Nodup) {d : Glsl.Function}
    (hd : d ∈ t.functions) : d.text ∈ plan.library.value.texts ↔ ¬t.IsDisplaced d := by
  constructor
  · rintro htext ⟨e, he, hsignature, hother⟩
    obtain ⟨f, hf, heq⟩ := List.mem_map.1 htext
    obtain ⟨u, hu⟩ := exists_turn_of_mem_library hf
    -- the text tells the function, so `d` itself is in the library, beside `e`
    obtain rfl : f = d := Glsl.eq_of_text_eq hu hd heq
    obtain rfl : e = f := List.inj_on_of_nodup_map plan.keeps_library.nodup_signatures
      (t.mem_library_of_mem_earlier he) hf hsignature
    exact hother rfl
  · -- either the library has the text already, or the signature is new and `d` is added
    intro hfree
    by_cases hnew : d.signature ∈ t.earlier.signatures
    · obtain ⟨e, he, hsignature⟩ := List.mem_map.1 hnew
      have htext : e.text = d.text := by
        by_contra hother
        exact hfree ⟨e, he, hsignature, hother⟩
      rw [← htext]
      exact Library.mem_texts_of_mem (t.mem_library_of_mem_earlier he)
    · obtain ⟨front, back, hparts⟩ := List.append_of_mem hd
      rw [hparts, List.map_append, List.map_cons] at hown
      have hfront : d.signature ∉ front.map (·.signature) := fun hmem =>
        (List.nodup_cons.1 (List.nodup_middle.1 hown)).1 (List.mem_append_left _ hmem)
      exact Library.mem_texts_of_mem (t.behind_front hparts ⟨hnew, hfront⟩).1

theorem conflicts_library : plan.library.conflicts = (plan.addNodes t.before {}).conflicts
    ++ (t.result.conflicts ++ (plan.addNodes t.after t.result.value).conflicts) := by
  rw [Warned.conflicts, t.warnings_library, List.filterMap_append, List.filterMap_append]
  rfl

/-- In its turn a node is in conflict for the functions that others stand in the place of. -/
theorem mem_conflicts_result (hown : (t.functions.map (·.signature)).Nodup) {name : String} :
    (name, t.id) ∈ t.result.conflicts ↔ ∃ d ∈ t.functions, d.name = name ∧ t.IsDisplaced d := by
  obtain ⟨lib, hlib, -, hwarnings⟩ := t.result_eq
  have hconflicts : t.result.conflicts
      = (t.functions.filter t.earlier.conflictsWith).map fun f => (f.name, t.id) := by
    have hsame : lib.conflictsWith = t.earlier.conflictsWith := by
      funext f
      rw [Library.conflictsWith, Library.function?, hlib]
      rfl
    rw [Warned.conflicts, hwarnings, List.filterMap_append]
    change (plan.specialise t.node t.code).conflicts ++ Warned.conflicts _ = _
    rw [(plan.filling_specialise t.node t.code).conflicts_eq_nil, List.nil_append,
      Library.conflicts_addFunctions lib t.id hown, hsame]
  rw [hconflicts]
  simp [isDisplaced_iff, and_assoc, and_comm]

/-- Conflicts of a node are reported in its turn. -/
theorem mem_conflicts_library (horder : plan.order.Nodup) {name : String} :
    (name, t.id) ∈ plan.library.conflicts ↔ (name, t.id) ∈ t.result.conflicts := by
  obtain ⟨hbefore, hafter⟩ := t.not_mem_of_nodup horder
  rw [conflicts_library, List.mem_append, List.mem_append]
  -- the other turns are those of other nodes and report for these
  constructor
  · rintro (h | h | h)
    · exact absurd (mem_of_mem_conflicts h) hbefore
    · exact h
    · exact absurd (mem_of_mem_conflicts h) hafter
  · exact fun h => Or.inr (Or.inl h)

end Turn

end Plan

/-- **Functions are lost only to earlier ones, and never without a report.** For every plan that
executes no id twice and every node whose functions have signatures of their own: a function of the
node, renamed or not, is in the library word by word exactly if no function that came earlier has
its signature and another text, and the conflicts reported for the node name just the functions that
are not in the library. -/
theorem instances_kept_iff (plan : Plan) (horder : plan.order.Nodup) (t : plan.Turn)
    (hown : (t.functions.map (·.signature)).Nodup) :
    let lib := plan.library.value
    (∀ d ∈ t.functions, d.text ∈ lib.texts ↔ ¬t.IsDisplaced d) ∧
    ∀ name, Warning.conflictingFunction name t.id ∈ plan.library.warnings ↔
      ∃ d ∈ t.functions, d.name = name ∧ d.text ∉ lib.texts := by
  intro lib
  refine ⟨fun d hd => Plan.Turn.mem_texts_iff hown hd, fun name => ?_⟩
  rw [← Warned.mem_conflicts, Plan.Turn.mem_conflicts_library horder,
    Plan.Turn.mem_conflicts_result hown]
  constructor
  · rintro ⟨d, hd, hname, hdisplaced⟩
    exact ⟨d, hd, hname, fun htext => (Plan.Turn.mem_texts_iff hown hd).1 htext hdisplaced⟩
  · rintro ⟨d, hd, hname, htext⟩
    refine ⟨d, hd, hname, ?_⟩
    by_contra hfree
    exact htext ((Plan.Turn.mem_texts_iff hown hd).2 hfree)

/-- A node type with a function that reads an input. -/
def NodeType.probe : NodeType :=
  { (bare "probe" "tool").withInput (.plain "x" .float) with
    functionCode := some "float v() \x7b return $input.x; \x7d" }

/-- The function of a probe as renamed, with the variable that it reads. -/
def Glsl.Function.probing (symbol : String) : Glsl.Function :=
  ⟨"float", "v_p_1", [], "float v_p_1() \x7b return " ++ symbol ++ "; \x7d"⟩

/-- The types of a light and of a probe for it. -/
def Catalog.bench : Catalog :=
  .ofList [(NodeType.bare "lamp" "source").withOutput (.plain "y" .float), .probe]

/-- A graph in which two probes have ids that come out alike. -/
def Graph.twins : Graph where
  id := "twins"
  name := "twins"
  version := formatVersion
  nodes := [.bare "a" "lamp", .bare "b" "lamp", .bare "p-1" "probe", .bare "p_1" "probe"]
  connections := [.between "1" ("a", "y") "p-1" (.port "x"),
    .between "2" ("b", "y") "p_1" (.port "x")]
  lanes := []

namespace Plan

/-- The plan of the graph. -/
def twins : Plan := compiling .bench {} .twins ["a", "b", "p-1", "p_1"]

/-- The turn of the first probe. -/
def firstTwin : twins.Turn where
  before := [⟨.bare "a" "lamp", _⟩, ⟨.bare "b" "lamp", _⟩]
  node := ⟨.bare "p-1" "probe", .probe⟩
  after := [⟨.bare "p_1" "probe", .probe⟩]
  nodes := rfl
  code := _
  given := rfl

/-- The turn of the other one. -/
def secondTwin : twins.Turn where
  before := [⟨.bare "a" "lamp", _⟩, ⟨.bare "b" "lamp", _⟩, ⟨.bare "p-1" "probe", .probe⟩]
  node := ⟨.bare "p_1" "probe", .probe⟩
  after := []
  nodes := rfl
  code := _
  given := rfl

theorem functions_firstTwin : firstTwin.functions = [.probing "node_a_y"] := by
  have hnames : firstTwin.names = [("v", "v_p_1")] :=
    (ownNames_of_isPersonal (by decide +kernel) _).trans (by decide +kernel)
  rw [Turn.functions_eq, hnames]
  decide +kernel

theorem names_secondTwin : secondTwin.names = [("v", "v_p_1")] :=
  (ownNames_of_isPersonal (by decide +kernel) _).trans (by decide +kernel)

theorem functions_secondTwin : secondTwin.functions = [.probing "node_b_y"] := by
  rw [Turn.functions_eq, names_secondTwin]
  decide +kernel

theorem nodup_order_twins : twins.order.Nodup := by decide

theorem nodup_signatures_secondTwin : (secondTwin.functions.map (·.signature)).Nodup := by
  rw [functions_secondTwin]
  exact List.nodup_singleton _

/-- The first probe leaves its function in the library. -/
theorem mem_earlier_secondTwin : .probing "node_a_y" ∈ secondTwin.earlier.functions := by
  have hkeeps : secondTwin.earlier.Keeps [.probing "node_a_y"] := by
    rw [← functions_firstTwin]
    exact firstTwin.keeps_result
  rw [hkeeps]
  exact List.mem_cons_self

theorem isDisplaced_secondTwin : secondTwin.IsDisplaced (.probing "node_b_y") :=
  ⟨_, mem_earlier_secondTwin, rfl, by decide⟩

theorem mem_functions_secondTwin : .probing "node_b_y" ∈ secondTwin.functions := by
  rw [functions_secondTwin]
  exact List.mem_cons_self

end Plan

/-- The function of the second probe is not in the library, and so it is reported. -/
theorem instances_kept_twins : Plan.twins.order.Nodup ∧
    (Plan.secondTwin.functions.map (·.signature)).Nodup ∧
    Warning.conflictingFunction "v_p_1" "p_1" ∈ Plan.twins.library.warnings := by
  obtain ⟨hkept, hreports⟩ := instances_kept_iff Plan.twins Plan.nodup_order_twins Plan.secondTwin
    Plan.nodup_signatures_secondTwin
  refine ⟨Plan.nodup_order_twins, Plan.nodup_signatures_secondTwin, ?_⟩
  refine (hreports "v_p_1").2 ⟨_, Plan.mem_functions_secondTwin, rfl, fun htext => ?_⟩
  exact (hkept _ Plan.mem_functions_secondTwin).1 htext Plan.isDisplaced_secondTwin

/-- The graph has no problems and both probes get functions of their own, but the functions come out
with one name: the library has that of the first probe, which reads the one lamp, and not that of
the second, which reads the other. -/
theorem twin_lost :
    checkStructure .bench {} .twins = [] ∧
    Graph.twins.executionOrder {} = .ok Plan.twins.order ∧
    Plan.twins.library.value.renamingOf "p_1" = [("v", "v_p_1")] ∧
    (Plan.secondTwin.functions.map (·.signature)).Nodup ∧
    .probing "node_b_y" ∈ Plan.secondTwin.functions ∧
    (Glsl.Function.probing "node_b_y").text ∉ Plan.twins.library.value.texts ∧
    (Glsl.Function.probing "node_a_y").text ∈ Plan.twins.library.value.texts := by
  refine ⟨by decide +kernel, by decide +kernel, ?_, Plan.nodup_signatures_secondTwin,
    Plan.mem_functions_secondTwin, ?_, ?_⟩
  · exact (Plan.secondTwin.renamingOf_library Plan.nodup_order_twins).trans Plan.names_secondTwin
  · intro htext
    exact (Plan.Turn.mem_texts_iff Plan.nodup_signatures_secondTwin
      Plan.mem_functions_secondTwin).1 htext Plan.isDisplaced_secondTwin
  · exact Library.mem_texts_of_mem
      (Plan.secondTwin.mem_library_of_mem_earlier Plan.mem_earlier_secondTwin)

end ShaderGraph
