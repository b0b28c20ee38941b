import ShaderGraph.Proofs.Library
import ShaderGraph.Proofs.References
import Mathlib.Data.List.Forall2

/-!
# Entries of the library

What the library owes to the functions that nodes bring. Every one has an entry under its signature,
which has its text unless there was a report, and a function that is new stands behind those that
its code has in front of it.

The order matters since a function has to stand behind those that it calls. What a node adds stands
in the order of its code, behind all that earlier nodes have brought.
-/

namespace ShaderGraph

namespace Library.Keeps

variable {lib lib' : Library} {brought more : List Glsl.Function} {f : Glsl.Function}

/-- What is kept stays kept when more is brought. -/
theorem mem_of_mem (h : lib.Keeps brought) (h' : lib'.Keeps (brought ++ more))
    (hf : f ∈ lib.functions) : f ∈ lib'.functions := by
  rw [h', distinctOn_append, ← h]
  exact List.mem_append_left _ hf

/-- A function with a new signature is kept, behind all the signatures there were. -/
theorem mem_of_new (h : lib.Keeps (brought ++ f :: more))
    (hnew : f.signature ∉ brought.map (·.signature)) :
    f ∈ lib.functions ∧ ∀ d ∈ brought, [d.signature, f.signature].Sublist lib.signatures := by
  obtain ⟨rest, hrest⟩ := distinctOn_append_cons (y := more) hnew
  have hfunctions : lib.functions = distinctOn Glsl.Function.signature brought ++ f :: rest :=
    h.trans hrest
  refine ⟨by rw [hfunctions]; simp, fun d hd => ?_⟩
  have hfront : d.signature ∈ (distinctOn Glsl.Function.signature brought).map (·.signature) :=
    mem_map_distinctOn.2 (List.mem_map.2 ⟨d, hd, rfl⟩)
  have hback : f.signature ∈ (f :: rest).map (·.signature) := List.mem_cons_self
  rw [signatures, hfunctions, List.map_append]
  exact (List.singleton_sublist.2 hfront).append (List.singleton_sublist.2 hback)

end Library.Keeps

namespace Plan

variable {plan : Plan} {f d : Glsl.Function}

theorem functionsOf_of_mem_library (h : f ∈ plan.library.value.functions) :
    Glsl.functionsOf f.text = [f] := by
  obtain ⟨t, ht⟩ := exists_turn_of_mem_library h
  exact Glsl.functionsOf_text ht

namespace Turn

variable (t : plan.Turn)

/-- The library after the turn. -/
def result : Warned Library := plan.addNode t.earlier t.node

/-- What the functions of the node are added to. -/
theorem result_eq : ∃ lib : Library, lib.functions = t.earlier.functions ∧
    t.result.value = (Library.addFunctions t.id t.functions lib).value ∧
    t.result.warnings = (plan.specialise t.node t.code).warnings
      ++ (Library.addFunctions t.id t.functions lib).warnings := by
  refine ⟨(t.earlier.withRenaming t.id t.names).addPreamble
    (Glsl.scan (plan.finalCode t.earlier t.node t.code)).preamble, ?_, ?_, ?_⟩
  · rw [Library.functions_addPreamble, Library.functions_withRenaming]
  · rw [result, addNode_of_code? t.given, Warned.value_bind, addCode_eq]
    rfl
  · rw [result, addNode_of_code? t.given, Warned.warnings_bind, addCode_eq]
    rfl

theorem keeps_result : t.result.value.Keeps (plan.broughtBy t.before {} ++ t.functions) := by
  rw [← t.brought_eq]
  exact keeps_addNode t.keeps_earlier t.node

theorem keeps_library : ∃ later, plan.library.value.Keeps
    (plan.broughtBy t.before {} ++ (t.functions ++ later)) := by
  obtain ⟨later, hlater⟩ := t.broughtBy_eq
  exact ⟨later, hlater ▸ plan.keeps_library⟩

theorem warnings_library : plan.library.warnings = (plan.addNodes t.before {}).warnings
    ++ (t.result.warnings ++ (plan.addNodes t.after t.result.value).warnings) := by
  rw [library, t.nodes, warnings_addNodes_append, addNodes, Warned.warnings_bind]
  rfl

/-- What was kept before the turn stays. -/
theorem mem_library_of_mem_earlier (h : f ∈ t.earlier.functions) :
    f ∈ plan.library.value.functions := by
  obtain ⟨later, hlater⟩ := t.keeps_library
  exact t.keeps_earlier.mem_of_mem hlater h

/-- **A function of a turn has an entry**, of its own text unless there was a report. -/
theorem entry (h : d ∈ t.functions) :
    ∃ f, plan.library.value.function? d.signature = some f ∧
      (f.text = d.text
        ∨ Warning.conflictingFunction d.name t.id ∈ plan.library.warnings) := by
  obtain ⟨lib, -, hvalue, hwarnings⟩ := t.result_eq
  obtain ⟨f, hf, htext⟩ := Library.entry_addFunctions t.id lib h
  rw [← hvalue] at hf
  obtain ⟨later, hlater⟩ := t.keeps_library
  rw [← List.append_assoc] at hlater
  -- the entry is there after the turn, and it stays
  have hkept : f ∈ plan.library.value.functions :=
    t.keeps_result.mem_of_mem hlater (Library.mem_of_function? hf)
  refine ⟨f, ?_, htext.imp_right fun hreport => ?_⟩
  · rw [← Library.signature_of_function? hf]
    exact plan.keeps_library.function?_eq hkept
  · rw [t.warnings_library, hwarnings]
    exact List.mem_append_right _ (List.mem_append_left _ (List.mem_append_right _ hreport))

/-- The node is the first to bring a function: neither the library nor the code in front of the
function has one of its signature. -/
def IsFirst (front : List Glsl.Function) (e : Glsl.Function) : Prop :=
  e.signature ∉ t.earlier.signatures ∧ e.signature ∉ front.map (·.signature)

/-- **The order of the code survives**: a function that its node is the first to bring stands behind
what its code has in front of it. -/
theorem behind_front {front back : List Glsl.Function} {e : Glsl.Function}
    (hparts : t.functions = front ++ e :: back) (hfirst : t.IsFirst front e) :
    e ∈ plan.library.value.functions ∧
      ∀ d ∈ front, [d.signature, e.signature].Sublist plan.library.value.signatures := by
  obtain ⟨later, hlater⟩ := t.keeps_library
  rw [hparts, List.append_assoc, List.cons_append, ← List.append_assoc] at hlater
  have hnew : e.signature ∉ (plan.broughtBy t.before {} ++ front).map (·.signature) := by
    rw [List.map_append, List.mem_append, ← t.keeps_earlier.mem_signatures]
    rintro (hearlier | hfront)
    · exact hfirst.1 hearlier
    · exact hfirst.2 hfront
  obtain ⟨hmem, hbehind⟩ := hlater.mem_of_new hnew
  exact ⟨hmem, fun d hd => hbehind d (List.mem_append_right _ hd)⟩

end Turn

end Plan

/-- **The library is sound.** For every plan that executes no id twice, the functions of the library
have signatures of their own, and each text scans back as one function of its signature. In the turn
of a node that has code, the library gets the node's new names, and then: every function of the
final code has an entry under its signature, with its text unless a conflict was reported for it;
and a function that the node is the first to bring stands behind all that its code has in front of
it. -/
theorem library_sound (plan : Plan) (horder : plan.order.Nodup) :
    let lib := plan.library.value
    lib.signatures.Nodup ∧
    List.Forall₂ (fun text signature => ∃ f, Glsl.functionsOf text = [f] ∧ f.signature = signature)
      lib.texts lib.signatures ∧
    ∀ t : plan.Turn,
      lib.renamingOf t.id = t.names ∧
      (∀ d ∈ t.functions, ∃ f, lib.function? d.signature = some f ∧
        (f.text = d.text ∨ Warning.conflictingFunction d.name t.id ∈ plan.library.warnings)) ∧
      ∀ front e back, t.functions = front ++ e :: back → t.IsFirst front e →
        e ∈ lib.functions ∧ ∀ d ∈ front, [d.signature, e.signature].Sublist lib.signatures := by
  intro lib
  refine ⟨plan.keeps_library.nodup_signatures, ?_, fun t => ⟨t.renamingOf_library horder,
    fun d hd => t.entry hd, fun front e back => t.behind_front⟩⟩
  rw [Library.texts, Library.signatures, List.forall₂_map_left_iff, List.forall₂_map_right_iff,
    List.forall₂_same]
  intro f hf
  exact ⟨f, Plan.functionsOf_of_mem_library hf, rfl⟩

/-- A function without parameters. -/
def Glsl.Function.helper : Glsl.Function := ⟨"void", "k", [], "void k() \x7b \x7d"⟩

/-- A function that takes an `int`. -/
def Glsl.Function.taking : Glsl.Function := ⟨"void", "v", ["int"], "void v(int x) \x7b k(); \x7d"⟩

/-- A function whose name ends in `int`. -/
def Glsl.Function.ending : Glsl.Function := ⟨"void", "v_int", [], "void v_int() \x7b \x7d"⟩

/-- A node type with a function that calls another one. -/
def NodeType.caller : NodeType :=
  { bare "caller" "tool" with
    functionCode := some "void k() \x7b \x7d void v(int x) \x7b k(); \x7d" }

/-- A node type with a function of the same signature. -/
def NodeType.homonym : NodeType :=
  { bare "homonym" "tool" with functionCode := some "void v_int() \x7b \x7d" }

/-- A graph in which two functions share a signature. -/
def Graph.homonyms : Graph where
  id := "homonyms"
  name := "homonyms"
  version := formatVersion
  nodes := [.bare "a" "caller", .bare "b" "homonym"]
  connections := []
  lanes := []

namespace Plan

/-- The plan of the graph. -/
def homonyms : Plan := compiling (.ofList [.caller, .homonym]) {} .homonyms ["a", "b"]

/-- The turn of the node with two functions, the first of all. -/
def callerTurn : homonyms.Turn where
  before := []
  node := ⟨.bare "a" "caller", .caller⟩
  after := [⟨.bare "b" "homonym", .homonym⟩]
  nodes := rfl
  code := _
  given := rfl

/-- The turn of the other node. -/
def homonymTurn : homonyms.Turn where
  before := [⟨.bare "a" "caller", .caller⟩]
  node := ⟨.bare "b" "homonym", .homonym⟩
  after := []
  nodes := rfl
  code := _
  given := rfl

theorem functions_callerTurn : callerTurn.functions = [.helper, .taking] := by
  have hnames : callerTurn.names = [] :=
    ownNames_of_not_readsParams (by decide +kernel) (by decide +kernel) _
  rw [Turn.functions_eq, hnames]
  decide +kernel

theorem functions_homonymTurn : homonymTurn.functions = [.ending] := by
  have hnames : homonymTurn.names = [] :=
    ownNames_of_not_readsParams (by decide +kernel) (by decide +kernel) _
  rw [Turn.functions_eq, hnames]
  decide +kernel

theorem isFirst_taking : callerTurn.IsFirst [.helper] .taking :=
  ⟨by decide, by decide⟩

end Plan

/-- The functions of the first node stand in their order, and that of the other node has an entry,
too, which is not its own. -/
theorem library_homonyms : Plan.homonyms.order.Nodup ∧
    let lib := Plan.homonyms.library.value
    lib.signatures.Nodup ∧ lib.renamingOf "b" = Plan.homonymTurn.names ∧
    ["void_k", "void_v_int"].Sublist lib.signatures ∧
    ∃ f, lib.function? "void_v_int" = some f ∧
      (f.text = "void v_int() \x7b \x7d"
        ∨ Warning.conflictingFunction "v_int" "b" ∈ Plan.homonyms.library.warnings) := by
  have horder : Plan.homonyms.order.Nodup := by decide
  obtain ⟨hnodup, -, hturns⟩ := library_sound Plan.homonyms horder
  obtain ⟨-, -, hfront⟩ := hturns Plan.callerTurn
  obtain ⟨hnames, hentries, -⟩ := hturns Plan.homonymTurn
  obtain ⟨-, hbehind⟩ := hfront [.helper] .taking [] Plan.functions_callerTurn Plan.isFirst_taking
  have hending : Glsl.Function.ending ∈ Plan.homonymTurn.functions := by
    rw [Plan.functions_homonymTurn]
    exact List.mem_cons_self
  exact ⟨horder, hnodup, hnames, hbehind .helper List.mem_cons_self, hentries .ending hending⟩

end ShaderGraph
