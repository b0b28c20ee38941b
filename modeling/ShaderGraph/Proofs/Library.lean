import ShaderGraph.Emit.Library
import ShaderGraph.Proofs.Functions
import Mathlib.Data.List.Nodup

/-!
# The library, turn by turn

The nodes bring their functions to the library one after another. A `Turn` is the place of one node
in this: what the library holds when the node comes, the names its functions get, and its code in
the end. The code depends on the library so far, so the turns cannot be told apart from the run.

What the run comes to is simple all the same: of the functions that all turns bring, in order, the
library keeps the first of each signature (`keeps_library`).
-/

namespace ShaderGraph

/-! ## One function -/

namespace Library

variable {lib : Library} {nodeId signature : String} {f g : Glsl.Function}
  {brought functions : List Glsl.Function}

/-- The texts of the functions, in their order. -/
def texts (lib : Library) : List String := lib.functions.map (·.text)

/-- The library holds, of functions brought to it, the first of each signature. -/
def Keeps (lib : Library) (brought : List Glsl.Function) : Prop :=
  lib.functions = distinctOn Glsl.Function.signature brought

theorem function?_eq_none_iff : lib.function? signature = none ↔ signature ∉ lib.signatures := by
  simp [function?, signatures]

theorem signature_of_function? (h : lib.function? signature = some g) :
    g.signature = signature := by
  simpa using List.find?_some h

theorem mem_of_function? (h : lib.function? signature = some g) : g ∈ lib.functions :=
  List.mem_of_find?_eq_some h

theorem mem_texts_of_mem (h : f ∈ lib.functions) : f.text ∈ lib.texts :=
  List.mem_map.2 ⟨f, h, rfl⟩

/-- A function is added if its signature is new; nothing else is changed. -/
theorem value_addFunction (lib : Library) (nodeId : String) (f : Glsl.Function) :
    (lib.addFunction nodeId f).value
      = if f.signature ∈ lib.signatures then lib
        else { lib with functions := lib.functions ++ [f] } := by
  rw [addFunction]
  split
  · rename_i hnone
    rw [if_neg (function?_eq_none_iff.1 hnone)]
    rfl
  · rename_i found hfound
    have hmem : f.signature ∈ lib.signatures := by
      by_contra hnot
      rw [function?_eq_none_iff.2 hnot] at hfound
      cases hfound
    rw [if_pos hmem]
    split <;> rfl

/-- A function is reported if the library has another one of its signature. -/
theorem warnings_addFunction (lib : Library) (nodeId : String) (f : Glsl.Function) :
    (lib.addFunction nodeId f).warnings
      = if lib.conflictsWith f then [.conflictingFunction f.name nodeId] else [] := by
  rw [addFunction, conflictsWith]
  split
  · rename_i hnone
    simp [hnone]
  · rename_i found hfound
    rw [hfound, Option.any_some]
    split
    · rename_i hsame
      simp [hsame]
    · rename_i hother
      simp [hother]

theorem function?_addFunction (lib : Library) (nodeId : String) (f : Glsl.Function)
    (signature : String) :
    (lib.addFunction nodeId f).value.function? signature
      = (lib.function? signature).or (if f.signature = signature then some f else none) := by
  rw [value_addFunction]
  split
  · rename_i hmem
    by_cases hsig : f.signature = signature
    · -- the signature is taken, so the look-up succeeds without `f`
      subst hsig
      obtain ⟨found, hfound⟩ : ∃ found, lib.function? f.signature = some found := by
        refine Option.ne_none_iff_exists'.1 fun hnone => ?_
        exact function?_eq_none_iff.1 hnone hmem
      rw [hfound, Option.some_or]
    · rw [if_neg hsig, Option.or_none]
  · rw [function?, List.find?_append, List.find?_singleton]
    simp [function?]

/-- What is found stays. -/
theorem function?_addFunction_of_some (h : lib.function? signature = some g) :
    (lib.addFunction nodeId f).value.function? signature = some g := by
  rw [function?_addFunction, h, Option.some_or]

/-- A function that was added has an entry: one of the same text, or there was a report. -/
theorem entry_addFunction (lib : Library) (nodeId : String) (f : Glsl.Function) :
    ∃ g, (lib.addFunction nodeId f).value.function? f.signature = some g ∧
      (g.text = f.text
        ∨ Warning.conflictingFunction f.name nodeId ∈ (lib.addFunction nodeId f).warnings) := by
  rw [function?_addFunction, if_pos rfl, warnings_addFunction, conflictsWith]
  cases hfound : lib.function? f.signature with
  | none => exact ⟨f, rfl, Or.inl rfl⟩
  | some g =>
    refine ⟨g, rfl, ?_⟩
    by_cases hsame : g.text = f.text
    · exact Or.inl hsame
    · exact Or.inr (by simp [hsame])

theorem Keeps.mem_signatures (h : lib.Keeps brought) :
    signature ∈ lib.signatures ↔ signature ∈ brought.map (·.signature) := by
  rw [signatures, h]
  exact mem_map_distinctOn

theorem Keeps.nodup_signatures (h : lib.Keeps brought) : lib.signatures.Nodup := by
  rw [signatures, h]
  exact List.pairwise_map.2 (distinctOn_pairwise _)

theorem Keeps.mem_brought (h : lib.Keeps brought) (hf : f ∈ lib.functions) : f ∈ brought := by
  rw [h] at hf
  exact (distinctOn_sublist _).subset hf

/-- A signature is found at its one function. -/
theorem Keeps.function?_eq (h : lib.Keeps brought) (hf : f ∈ lib.functions) :
    lib.function? f.signature = some f := by
  obtain ⟨g, hg⟩ : ∃ g, lib.function? f.signature = some g := by
    refine Option.ne_none_iff_exists'.1 fun hnone => ?_
    exact function?_eq_none_iff.1 hnone (List.mem_map.2 ⟨f, hf, rfl⟩)
  rw [hg, List.inj_on_of_nodup_map h.nodup_signatures (mem_of_function? hg) hf
    (signature_of_function? hg)]

theorem Keeps.addFunction (h : lib.Keeps brought) (nodeId : String) (f : Glsl.Function) :
    (lib.addFunction nodeId f).value.Keeps (brought ++ [f]) := by
  rw [Keeps, value_addFunction, distinctOn_append]
  split
  · rename_i hmem
    rw [distinctOn, distinctOn, List.filter_nil,
      List.filter_cons_of_neg (by simpa using h.mem_signatures.1 hmem), List.filter_nil,
      List.append_nil]
    exact h
  · rename_i hnew
    rw [distinctOn, distinctOn, List.filter_nil,
      List.filter_cons_of_pos (by simpa using fun hmem => hnew (h.mem_signatures.2 hmem)),
      List.filter_nil, ← h]

/-! ## The functions of a node -/

/-- What a run of functions keeps. -/
theorem Keeps.addFunctions (h : lib.Keeps brought) (nodeId : String)
    (functions : List Glsl.Function) :
    (Library.addFunctions nodeId functions lib).value.Keeps (brought ++ functions) := by
  induction functions generalizing lib brought with
  | nil => simpa [Library.addFunctions] using h
  | cons f rest ih =>
    have hrest := ih (h.addFunction nodeId f)
    rw [List.append_assoc, List.singleton_append] at hrest
    exact hrest

theorem function?_addFunctions_of_some (h : lib.function? signature = some g) :
    (addFunctions nodeId functions lib).value.function? signature = some g := by
  induction functions generalizing lib with
  | nil => exact h
  | cons f rest ih => exact ih (function?_addFunction_of_some h)

/-- Every function of a run has its entry in the end. -/
theorem entry_addFunctions (nodeId : String) (lib : Library) (h : f ∈ functions) :
    ∃ g, (addFunctions nodeId functions lib).value.function? f.signature = some g ∧
      (g.text = f.text
        ∨ Warning.conflictingFunction f.name nodeId
            ∈ (addFunctions nodeId functions lib).warnings) := by
  induction functions generalizing lib with
  | nil => cases h
  | cons first rest ih =>
    rw [addFunctions, Warned.value_bind, Warned.warnings_bind]
    rcases List.mem_cons.1 h with rfl | h
    · obtain ⟨g, hg, htext⟩ := lib.entry_addFunction nodeId f
      refine ⟨g, function?_addFunctions_of_some hg, ?_⟩
      exact htext.imp_right (List.mem_append_left _)
    · obtain ⟨g, hg, htext⟩ := ih _ h
      exact ⟨g, hg, htext.imp_right (List.mem_append_right _)⟩

theorem conflictsWith_addFunction (h : f.signature ≠ g.signature) :
    (lib.addFunction nodeId f).value.conflictsWith g = lib.conflictsWith g := by
  rw [conflictsWith, conflictsWith, function?_addFunction, if_neg h, Option.or_none]

/-- Functions of different signatures are reported if the library has others in their place. -/
theorem warnings_addFunctions (lib : Library) (nodeId : String)
    (h : (functions.map (·.signature)).Nodup) :
    (addFunctions nodeId functions lib).warnings
      = (functions.filter lib.conflictsWith).map fun f => .conflictingFunction f.name nodeId := by
  induction functions generalizing lib with
  | nil => rfl
  | cons f rest ih =>
    obtain ⟨hf, hrest⟩ := List.nodup_cons.1 h
    -- `f` is of another signature than the rest, so they meet the library as it was
    have hsame : ∀ g ∈ rest,
        (lib.addFunction nodeId f).value.conflictsWith g = lib.conflictsWith g := by
      intro g hg
      refine conflictsWith_addFunction fun heq => hf ?_
      exact List.mem_map.2 ⟨g, hg, heq.symm⟩
    rw [addFunctions, Warned.warnings_bind, warnings_addFunction, ih _ hrest,
      List.filter_congr hsame, List.filter_cons]
    split
    · rfl
    · rfl

theorem renamings_addFunctions (nodeId : String) (functions : List Glsl.Function) (lib : Library) :
    (addFunctions nodeId functions lib).value.renamings = lib.renamings := by
  induction functions generalizing lib with
  | nil => rfl
  | cons f rest ih =>
    rw [addFunctions, Warned.value_bind, ih, value_addFunction]
    split <;> rfl

/-- The preamble is a matter of its own. -/
theorem functions_addPreamble (lib : Library) (text : String) :
    (lib.addPreamble text).functions = lib.functions := by
  rw [addPreamble]
  split <;> rfl

theorem renamings_addPreamble (lib : Library) (text : String) :
    (lib.addPreamble text).renamings = lib.renamings := by
  rw [addPreamble]
  split <;> rfl

/-- The library with new names for a node, if there are any. -/
def withRenaming (lib : Library) (nodeId : String) (names : Glsl.Renaming) : Library :=
  if names.isEmpty then lib else { lib with renamings := lib.renamings.insert nodeId names }

theorem functions_withRenaming (lib : Library) (nodeId : String) (names : Glsl.Renaming) :
    (lib.withRenaming nodeId names).functions = lib.functions := by
  rw [withRenaming]
  split <;> rfl

theorem renamingOf_withRenaming (lib : Library) (nodeId : String) (names : Glsl.Renaming)
    (id : String) : (lib.withRenaming nodeId names).renamingOf id
      = if id = nodeId ∧ names ≠ [] then names else lib.renamingOf id := by
  rw [withRenaming]
  cases names with
  | nil => simp
  | cons first rest =>
    by_cases hid : id = nodeId <;> simp [renamingOf, Dict.find?_insert, hid]

end Library

/-! ## Turns -/

/-- The function code of a node, if it has any that is not blank. -/
def TypedNode.code? (n : TypedNode) : Option String :=
  n.type.functionCode.filter fun code => !Text.isBlankText code

namespace Plan

variable {plan : Plan} {lib : Library} {n : TypedNode} {nodes before after : List TypedNode}
  {code nodeId : String} {held : List Glsl.Function} {f : Glsl.Function}

/-- The new names for the functions of a node, given the library so far: none, unless the functions
have to be the node's own. -/
def ownNames (plan : Plan) (lib : Library) (n : TypedNode) (s : Specialised) : Glsl.Renaming :=
  let found := Glsl.functionsOf s.code
  if plan.needsOwn lib n s found then instanceRenaming n.node.id found else []

/-- Code that names something of its node gets its own names, whatever the library holds. -/
theorem ownNames_of_isPersonal {s : Specialised}
    (h : s.isPersonal (plan.uniforms.namesOf n.node.id) = true) (lib : Library) :
    plan.ownNames lib n s = instanceRenaming n.node.id (Glsl.functionsOf s.code) := by
  simp [ownNames, needsOwn, h]

/-- Code that depends neither on its node nor on parameters keeps its names. -/
theorem ownNames_of_not_readsParams {s : Specialised}
    (h : s.isPersonal (plan.uniforms.namesOf n.node.id) = false) (hparams : s.readsParams = false)
    (lib : Library) : plan.ownNames lib n s = [] := by
  simp [ownNames, needsOwn, h, hparams]

/-- The code that a node brings to a library: filled in, and renamed if its functions have to be the
node's own. -/
def finalCode (plan : Plan) (lib : Library) (n : TypedNode) (code : String) : String :=
  let s := (plan.specialise n code).value
  (plan.ownNames lib n s).rename s.code

/-- Code is added with its new names, if it gets any. -/
theorem addCode_eq (plan : Plan) (lib : Library) (n : TypedNode) (s : Specialised) :
    plan.addCode lib n s = (lib.withRenaming n.node.id (plan.ownNames lib n s)).addSource
      n.node.id (Glsl.scan ((plan.ownNames lib n s).rename s.code)) := by
  have hscan : (Glsl.scan s.code).functions.map (·.function) = Glsl.functionsOf s.code := rfl
  simp only [addCode, ownNames, hscan]
  cases hown : plan.needsOwn lib n s (Glsl.functionsOf s.code) with
  | false => rfl
  | true =>
    cases hfound : Glsl.functionsOf s.code with
    | nil => rfl
    | cons f rest => rfl

theorem addNode_of_code? (h : n.code? = some code) (lib : Library) :
    plan.addNode lib n = plan.specialise n code >>= plan.addCode lib n := by
  obtain ⟨hcode, hwritten⟩ := Option.filter_eq_some_iff.1 h
  have hwritten : Text.isBlankText code = false := by simpa using hwritten
  simp only [addNode, hcode, hwritten]
  rfl

theorem addNode_of_code?_eq_none (h : n.code? = none) (lib : Library) :
    plan.addNode lib n = pure lib := by
  rw [addNode]
  split
  · rfl
  · rename_i code hcode
    have hblank : Text.isBlankText code = true := by
      simpa using Option.filter_eq_none_iff.1 h code hcode
    rw [if_pos hblank]

/-- The functions that a node brings to a library. -/
def brought (plan : Plan) (lib : Library) (n : TypedNode) : List Glsl.Function :=
  match n.code? with
  | none => []
  | some code => Glsl.functionsOf (plan.finalCode lib n code)

/-- The functions that nodes bring to a library, one after another. -/
def broughtBy (plan : Plan) : List TypedNode → Library → List Glsl.Function
  | [], _ => []
  | n :: rest, lib => plan.brought lib n ++ plan.broughtBy rest (plan.addNode lib n).value

/-- What a node brings is kept. -/
theorem keeps_addNode (h : lib.Keeps held) (n : TypedNode) :
    (plan.addNode lib n).value.Keeps (held ++ plan.brought lib n) := by
  rw [Plan.brought]
  cases hcode : n.code? with
  | none =>
    rw [addNode_of_code?_eq_none hcode, List.append_nil]
    exact h
  | some code =>
    rw [addNode_of_code? hcode, Warned.value_bind, addCode_eq, Library.addSource]
    refine Library.Keeps.addFunctions ?_ _ _
    rw [Library.Keeps, Library.functions_addPreamble, Library.functions_withRenaming]
    exact h

theorem keeps_addNodes (h : lib.Keeps held) (nodes : List TypedNode) :
    (plan.addNodes nodes lib).value.Keeps (held ++ plan.broughtBy nodes lib) := by
  induction nodes generalizing lib held with
  | nil => simpa [addNodes, broughtBy] using h
  | cons n rest ih =>
    rw [broughtBy, ← List.append_assoc]
    exact ih (keeps_addNode h n)

theorem keeps_empty : ({} : Library).Keeps [] := rfl

/-- **The library keeps the first function of each signature**, of all that the nodes bring. -/
theorem keeps_library (plan : Plan) : plan.library.value.Keeps (plan.broughtBy plan.nodes {}) :=
  keeps_addNodes keeps_empty plan.nodes

/-- The turn of a node that has code to bring: the nodes before it have had theirs. -/
structure Turn (plan : Plan) where
  before : List TypedNode
  node : TypedNode
  after : List TypedNode
  nodes : plan.nodes = before ++ node :: after
  code : String
  given : node.code? = some code

namespace Turn

variable (t : plan.Turn)

/-- The id of the node. -/
def id : String := t.node.node.id

/-- What the library holds when the node comes. -/
def earlier : Library := (plan.addNodes t.before {}).value

/-- The code of the node, filled in. -/
def specialised : Specialised := (plan.specialise t.node t.code).value

/-- The new names for the functions in the code. -/
def names : Glsl.Renaming := plan.ownNames t.earlier t.node t.specialised

/-- The functions that the node brings: those of its code in the end. -/
def functions : List Glsl.Function := Glsl.functionsOf (plan.finalCode t.earlier t.node t.code)

theorem functions_eq : t.functions = Glsl.functionsOf (t.names.rename t.specialised.code) := rfl

theorem brought_eq : plan.brought t.earlier t.node = t.functions := by
  rw [Plan.brought, t.given]
  rfl

theorem keeps_earlier : t.earlier.Keeps (plan.broughtBy t.before {}) :=
  keeps_addNodes keeps_empty t.before

end Turn

theorem value_addNodes_append (plan : Plan) (before after : List TypedNode) (lib : Library) :
    (plan.addNodes (before ++ after) lib).value
      = (plan.addNodes after (plan.addNodes before lib).value).value := by
  induction before generalizing lib with
  | nil => rfl
  | cons n rest ih => exact ih _

theorem warnings_addNodes_append (plan : Plan) (before after : List TypedNode) (lib : Library) :
    (plan.addNodes (before ++ after) lib).warnings
      = (plan.addNodes before lib).warnings
        ++ (plan.addNodes after (plan.addNodes before lib).value).warnings := by
  induction before generalizing lib with
  | nil => rfl
  | cons n rest ih =>
    rw [List.cons_append, addNodes, Warned.warnings_bind, ih, addNodes, Warned.warnings_bind,
      Warned.value_bind, List.append_assoc]

theorem broughtBy_append (plan : Plan) (before after : List TypedNode) (lib : Library) :
    plan.broughtBy (before ++ after) lib
      = plan.broughtBy before lib ++ plan.broughtBy after (plan.addNodes before lib).value := by
  induction before generalizing lib with
  | nil => rfl
  | cons n rest ih =>
    rw [List.cons_append, broughtBy, ih, broughtBy, List.append_assoc]
    rfl

/-- What all nodes bring: what came before a turn, what it brings itself and what comes after. -/
theorem Turn.broughtBy_eq (t : plan.Turn) : ∃ later,
    plan.broughtBy plan.nodes {} = plan.broughtBy t.before {} ++ (t.functions ++ later) := by
  rw [t.nodes, broughtBy_append, broughtBy, ← t.brought_eq]
  exact ⟨_, rfl⟩

theorem exists_mem_brought_of_mem_broughtBy (h : f ∈ plan.broughtBy nodes lib) :
    ∃ before n after, nodes = before ++ n :: after
      ∧ f ∈ plan.brought (plan.addNodes before lib).value n := by
  induction nodes generalizing lib with
  | nil => cases h
  | cons n rest ih =>
    rcases List.mem_append.1 h with h | h
    · exact ⟨[], n, rest, rfl, h⟩
    · obtain ⟨before, m, after, rfl, hf⟩ := ih h
      exact ⟨n :: before, m, after, rfl, hf⟩

/-- Whatever the library keeps was brought in some turn. -/
theorem exists_turn_of_mem_library (h : f ∈ plan.library.value.functions) :
    ∃ t : plan.Turn, f ∈ t.functions := by
  obtain ⟨before, n, after, hnodes, hf⟩ :=
    exists_mem_brought_of_mem_broughtBy (plan.keeps_library.mem_brought h)
  cases hcode : n.code? with
  | none =>
    rw [Plan.brought, hcode] at hf
    cases hf
  | some code =>
    let t : plan.Turn := ⟨before, n, after, hnodes, code, hcode⟩
    exact ⟨t, by rw [← t.brought_eq]; exact hf⟩

/-! ## The names that a turn gives -/

theorem renamingOf_addNode (h : n.code? = some code) (lib : Library) (nodeId : String) :
    (plan.addNode lib n).value.renamingOf nodeId =
      let names := plan.ownNames lib n (plan.specialise n code).value
      if nodeId = n.node.id ∧ names ≠ [] then names else lib.renamingOf nodeId := by
  rw [addNode_of_code? h, Warned.value_bind, addCode_eq, Library.addSource, Library.renamingOf,
    Library.renamings_addFunctions, Library.renamings_addPreamble]
  exact Library.renamingOf_withRenaming _ _ _ _

/-- A node gives names to its own functions only. -/
theorem renamingOf_addNodes_of_not_mem (h : nodeId ∉ nodes.map (·.node.id)) :
    (plan.addNodes nodes lib).value.renamingOf nodeId = lib.renamingOf nodeId := by
  induction nodes generalizing lib with
  | nil => rfl
  | cons n rest ih =>
    obtain ⟨hn, hrest⟩ := List.ne_and_not_mem_of_not_mem_cons h
    rw [addNodes, Warned.value_bind, ih hrest]
    cases hcode : n.code? with
    | none => rw [addNode_of_code?_eq_none hcode, Warned.value_pure]
    | some code =>
      rw [renamingOf_addNode hcode]
      exact if_neg fun hid => hn hid.1

/-- The ids of the nodes in a plan are those of its order, the unknown ones left out. -/
theorem sublist_order (plan : Plan) : List.Sublist (plan.nodes.map (·.node.id)) plan.order := by
  rw [nodes]
  induction plan.order with
  | nil => exact List.Sublist.slnil
  | cons id rest ih =>
    rw [List.filterMap_cons]
    split
    · -- an id without a node or a type drops out
      exact ih.cons id
    · rename_i n hn
      obtain ⟨node, hnode, hn⟩ := Option.bind_eq_some_iff.1 hn
      obtain ⟨t, -, rfl⟩ := Option.map_eq_some_iff.1 hn
      obtain rfl : node.id = id := by simpa using List.find?_some hnode
      exact ih.cons_cons _

namespace Turn

/-- Where no id is executed twice, a node has one turn. -/
theorem not_mem_of_nodup (t : plan.Turn) (h : plan.order.Nodup) :
    t.id ∉ t.before.map (·.node.id) ∧ t.id ∉ t.after.map (·.node.id) := by
  have hids := h.sublist plan.sublist_order
  rw [t.nodes, List.map_append, List.map_cons] at hids
  have hmiddle := List.nodup_middle.1 hids
  have hnot := (List.nodup_cons.1 hmiddle).1
  exact ⟨fun hmem => hnot (List.mem_append_left _ hmem),
    fun hmem => hnot (List.mem_append_right _ hmem)⟩

/-- **The names that the library has for a node are those given in its turn.** -/
theorem renamingOf_library (t : plan.Turn) (h : plan.order.Nodup) :
    plan.library.value.renamingOf t.id = t.names := by
  -- the turns before and after are those of other nodes, which leave the names alone
  obtain ⟨hbefore, hafter⟩ := t.not_mem_of_nodup h
  have hearlier : t.earlier.renamingOf t.id = [] := renamingOf_addNodes_of_not_mem hbefore
  rw [library, t.nodes, value_addNodes_append, addNodes, Warned.value_bind,
    renamingOf_addNodes_of_not_mem hafter, renamingOf_addNode t.given]
  change (if t.id = t.id ∧ t.names ≠ [] then t.names else t.earlier.renamingOf t.id) = t.names
  rw [hearlier]
  split
  · rfl
  · rename_i hnone
    simpa using hnone

end Turn

end Plan

end ShaderGraph
