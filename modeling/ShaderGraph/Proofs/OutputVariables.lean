import ShaderGraph.Proofs.ConnectedInputs
import Mathlib.Data.List.Forall2

/-!
# Variables of outputs

The variable of an output is named after its node and itself: the id, an underscore and the name of
the output, with an underscore for every character that is not a letter or a digit. So the variables
of two outputs are the same exactly if the two names, each with the id in front of it, are alike:
they differ in characters only that become underscores (`Symbol.output_eq_output_iff`). An id may
itself end in what reads as the beginning of a name, and then outputs of different nodes share a
variable.

Every output has a variable of its own, declared with its type, exactly if no two outputs are alike
in this way. They are not if ids consist of letters and digits and the outputs of a type have names
that differ when cleaned.
-/

namespace ShaderGraph

/-! ## Names that are alike -/

namespace Symbol

variable {a b p q : String}

/-- The character that stands for a character in a symbol. -/
def cleanChar (c : Char) : Char := if c.isAlphanum then c else '_'

/-- Texts that differ at most in characters that are neither letters nor digits. -/
def Alike (a b : String) : Prop :=
  List.Forall₂ (fun c d => c = d ∨ (c.isAlphanum = false ∧ d.isAlphanum = false)) a.toList b.toList

theorem toList_clean (text : String) : (clean text).toList = text.toList.map cleanChar :=
  String.toList_map

theorem isAlphanum_cleanChar (c : Char) : (cleanChar c).isAlphanum = c.isAlphanum := by
  rw [cleanChar]
  split
  · rfl
  · rename_i hc
    have hbar : '_'.isAlphanum = false := by decide
    rw [hbar, Bool.eq_false_iff.2 hc]

theorem cleanChar_of_isAlphanum {c : Char} (h : c.isAlphanum = true) : cleanChar c = c := if_pos h

theorem cleanChar_eq_iff {c d : Char} :
    cleanChar c = cleanChar d ↔ c = d ∨ (c.isAlphanum = false ∧ d.isAlphanum = false) := by
  constructor
  · intro h
    have hsame : c.isAlphanum = d.isAlphanum := by
      rw [← isAlphanum_cleanChar, h, isAlphanum_cleanChar]
    cases hc : c.isAlphanum with
    | true =>
      rw [cleanChar_of_isAlphanum hc, cleanChar_of_isAlphanum (hsame ▸ hc)] at h
      exact Or.inl h
    | false => exact Or.inr ⟨rfl, hsame ▸ hc⟩
  · rintro (rfl | ⟨hc, hd⟩)
    · rfl
    · simp [cleanChar, hc, hd]

/-- Texts are cleaned to the same exactly if they are alike. -/
theorem clean_eq_clean_iff : clean a = clean b ↔ Alike a b := by
  rw [← String.toList_inj, toList_clean, toList_clean, ← List.forall₂_eq_eq_eq,
    List.forall₂_map_left_iff, List.forall₂_map_right_iff]
  simp only [cleanChar_eq_iff]
  rfl

theorem clean_append : clean (a ++ b) = clean a ++ clean b := by
  rw [← String.toList_inj, String.toList_append, toList_clean, toList_clean, toList_clean,
    String.toList_append, List.map_append]

theorem output_eq (nodeId port : String) :
    output nodeId port = "node_" ++ clean (nodeId ++ "_" ++ port) := by
  have hbar : clean "_" = "_" := by
    rw [← String.toList_inj, toList_clean]
    rfl
  rw [output, clean_append, clean_append, hbar, String.append_assoc, String.append_assoc,
    String.append_assoc]

/-- **Outputs share a variable exactly if their names are alike**, with the ids in front. -/
theorem output_eq_output_iff :
    output a p = output b q ↔ Alike (a ++ "_" ++ p) (b ++ "_" ++ q) := by
  rw [output_eq, output_eq, ← clean_eq_clean_iff, ← String.toList_inj, String.toList_append,
    String.toList_append, List.append_cancel_left_eq, String.toList_inj]

theorem clean_of_isAlphanum (h : a.toList.all Char.isAlphanum = true) : clean a = a := by
  have hsame : ∀ c ∈ a.toList, cleanChar c = id c := fun c hc =>
    cleanChar_of_isAlphanum (List.all_eq_true.1 h c hc)
  rw [← String.toList_inj, toList_clean, List.map_congr_left hsame, List.map_id]

/-- An id of letters and digits can be told from the name behind it. -/
theorem eq_of_output_eq (ha : a.toList.all Char.isAlphanum = true)
    (hb : b.toList.all Char.isAlphanum = true) (h : output a p = output b q) :
    a = b ∧ clean p = clean q := by
  have hchars : a.toList ++ '_' :: (clean p).toList = b.toList ++ '_' :: (clean q).toList := by
    rw [output, output, clean_of_isAlphanum ha, clean_of_isAlphanum hb, ← String.toList_inj] at h
    simpa using h
  -- the id is the text up to the first underscore
  have hid : a.toList = b.toList := by
    have hcut := congrArg (List.takeWhile Char.isAlphanum) hchars
    rwa [List.takeWhile_append_of_pos (List.all_eq_true.1 ha),
      List.takeWhile_append_of_pos (List.all_eq_true.1 hb),
      List.takeWhile_cons_of_neg (by decide), List.takeWhile_cons_of_neg (by decide),
      List.append_nil, List.append_nil] at hcut
  rw [hid, List.append_cancel_left_eq, List.cons.injEq] at hchars
  exact ⟨String.toList_inj.1 hid, String.toList_inj.1 hchars.2⟩

end Symbol

/-! ## Outputs of a graph -/

/-- A node of the graph has an output. -/
def Graph.HasOutput (catalog : Catalog) (g : Graph) (id : String) (port : Port) : Prop :=
  ∃ n ∈ g.nodes, n.id = id ∧ ∃ t, catalog.find? n.type = some t ∧ port ∈ t.outputs

/-- No two outputs of the graph share a variable. -/
def Graph.OutputsApart (catalog : Catalog) (g : Graph) : Prop :=
  ∀ id port id' port', g.HasOutput catalog id port → g.HasOutput catalog id' port' →
    Symbol.output id port.name = Symbol.output id' port'.name → id = id' ∧ port = port'

/-- Every output of the graph has a variable of its own, declared with its type. -/
structure Graph.OwnVariables (catalog : Catalog) (g : Graph) (declared : List Declaration) :
    Prop where
  apart : g.OutputsApart catalog
  typed : ∀ id port, g.HasOutput catalog id port →
    .variable port.type (Symbol.output id port.name) ∈ declared

namespace Plan

variable {plan : Plan} {n : TypedNode} {port : Port}

/-- Arrays have variables of another kind. -/
theorem symbol_ne_of_mem_ofArrays {d : Declaration} (h : d ∈ Declaration.ofArrays n)
    (id name : String) : d.symbol ≠ Symbol.output id name := by
  obtain ⟨e, -, rfl⟩ := List.mem_map.1 h
  intro heq
  have hchars := congrArg String.toList heq
  simp [Declaration.symbol, Symbol.array, Symbol.output] at hchars

/-- An output is declared with its type if all outputs with its variable have that type. -/
theorem mem_ownDeclarations_of_unrivalled (hn : n ∈ plan.nodes) (hport : port ∈ n.type.outputs)
    (h : ∀ m ∈ plan.nodes, ∀ p ∈ m.type.outputs,
      Symbol.output m.node.id p.name = Symbol.output n.node.id port.name → p.type = port.type) :
    .variable port.type (Symbol.output n.node.id port.name) ∈ plan.ownDeclarations := by
  have hmem : .variable port.type (Symbol.output n.node.id port.name) ∈ Declaration.ofNode n :=
    List.mem_append_left _ (List.mem_map.2 ⟨port, hport, rfl⟩)
  obtain ⟨own, hown, heq⟩ : ∃ own ∈ plan.ownDeclarations,
      own.symbol = Symbol.output n.node.id port.name :=
    exists_mem_distinctOn (List.mem_flatMap.2 ⟨n, hn, hmem⟩)
  -- the declaration that was kept is that of an output, and so of the same type
  obtain ⟨m, hm, hofNode⟩ := List.mem_flatMap.1 ((distinctOn_sublist _).subset hown)
  rcases List.mem_append.1 hofNode with hout | harray
  · obtain ⟨p, hp, rfl⟩ := List.mem_map.1 hout
    have htype := h m hm p hp heq
    have heq : Symbol.output m.node.id p.name = Symbol.output n.node.id port.name := heq
    rwa [htype, heq] at hown
  · exact absurd heq (symbol_ne_of_mem_ofArrays harray _ _)

end Plan

section Clean

variable {catalog : Catalog} {settings : Settings} {g : Graph} {order : List String}
  (hg : CleanGraph catalog settings g)

include hg

/-- The outputs of a clean graph are those of the nodes in its plan. -/
theorem CleanGraph.hasOutput_iff (horder : g.executionOrder settings = .ok order) {id : String}
    {port : Port} : g.HasOutput catalog id port ↔
      ∃ n ∈ (Plan.compiling catalog settings g order).nodes, n.node.id = id ∧
        port ∈ n.type.outputs := by
  constructor
  · rintro ⟨n, hn, hid, t, ht, hport⟩
    obtain ⟨t', hmem⟩ := Plan.exists_mem_nodes_of_clean hg horder hn
    have ht' := (Plan.typedNode?_eq_some_iff.1 (Plan.typedNode?_of_mem_nodes hmem)).2
    obtain rfl : t = t' := Option.some.inj (ht.symm.trans ht')
    exact ⟨⟨n, t⟩, hmem, hid, hport⟩
  · rintro ⟨n, hn, hid, hport⟩
    obtain ⟨hnode, htype⟩ := Plan.typedNode?_eq_some_iff.1 (Plan.typedNode?_of_mem_nodes hn)
    exact ⟨n.node, List.mem_of_find?_eq_some hnode, hid, n.type, htype, hport⟩

/-- Ids of letters and digits keep outputs apart, if those of a type differ when cleaned. -/
theorem CleanGraph.outputsApart (hids : ∀ n ∈ g.nodes, n.id.toList.all Char.isAlphanum = true)
    (hnames : ∀ id t, catalog.find? id = some t →
      (t.outputs.map fun port => Symbol.clean port.name).Nodup) : g.OutputsApart catalog := by
  rintro _ port _ port' ⟨n, hn, rfl, t, ht, hport⟩ ⟨n', hn', rfl, t', ht', hport'⟩ heq
  obtain ⟨hid, hname⟩ := Symbol.eq_of_output_eq (hids n hn) (hids n' hn') heq
  obtain rfl : n = n' := List.inj_on_of_nodup_map hg.ids hn hn' hid
  obtain rfl : t = t' := Option.some.inj (ht.symm.trans ht')
  exact ⟨rfl, List.inj_on_of_nodup_map (hnames _ _ ht) hport hport' hname⟩

/-- Outputs that share no variable are declared with their types. -/
theorem CleanGraph.ownVariables_of_apart (horder : g.executionOrder settings = .ok order)
    (h : g.OutputsApart catalog) :
    g.OwnVariables catalog (Plan.compiling catalog settings g order).declarations.value := by
  refine ⟨h, fun id port hport => ?_⟩
  obtain ⟨n, hn, rfl, hmem⟩ := (hg.hasOutput_iff horder).1 hport
  refine List.mem_append_left _ (Plan.mem_ownDeclarations_of_unrivalled hn hmem ?_)
  intro m hm p hp heq
  have hrival : g.HasOutput catalog m.node.id p := (hg.hasOutput_iff horder).2 ⟨m, hm, rfl, hp⟩
  rw [(h _ _ _ _ hrival hport heq).2]

end Clean

/-- **Every output has its own variable exactly if no two outputs are alike.** For every graph
without problems of structure and with an order of execution: different outputs have different
variables, each declared with the type of its output, exactly if no two outputs have names that are
alike, each with the id of its node and an underscore in front. That is so if all ids consist of
letters and digits and the names of the outputs of each type differ when cleaned. -/
theorem own_variables_iff (catalog : Catalog) (settings : Settings) (g : Graph)
    (order : List String) (hstructure : checkStructure catalog settings g = [])
    (horder : g.executionOrder settings = .ok order) :
    let declared := (Plan.compiling catalog settings g order).declarations.value
    (g.OwnVariables catalog declared ↔
      ∀ id port id' port', g.HasOutput catalog id port → g.HasOutput catalog id' port' →
        Symbol.Alike (id ++ "_" ++ port.name) (id' ++ "_" ++ port'.name) →
        id = id' ∧ port = port') ∧
    ((∀ n ∈ g.nodes, n.id.toList.all Char.isAlphanum = true) →
      (∀ id t, catalog.find? id = some t →
        (t.outputs.map fun port => Symbol.clean port.name).Nodup) →
      g.OwnVariables catalog declared) := by
  intro declared
  have hg : CleanGraph catalog settings g := cleanGraph_of_checkStructure hstructure
  simp only [← Symbol.output_eq_output_iff]
  refine ⟨⟨fun h => h.apart, hg.ownVariables_of_apart horder⟩, fun hids hnames => ?_⟩
  exact hg.ownVariables_of_apart horder (hg.outputsApart hids hnames)

/-- The types of a light and of a picture. -/
def Catalog.studio : Catalog := .ofList
  [(NodeType.bare "lamp" "source").withOutput (.plain "b_c" .float),
    (NodeType.bare "paint" "source").withOutput (.plain "c" .vec3)]

/-- A graph of a light and a picture. -/
def Graph.pair (lamp paint : String) : Graph where
  id := "pair"
  name := "pair"
  version := formatVersion
  nodes := [.bare lamp "lamp", .bare paint "paint"]
  connections := []
  lanes := []

theorem Graph.hasOutput_lamp (lamp paint : String) :
    (pair lamp paint).HasOutput .studio lamp (.plain "b_c" .float) :=
  ⟨.bare lamp "lamp", by simp [pair], rfl, _, rfl, by decide⟩

theorem Graph.hasOutput_paint (lamp paint : String) :
    (pair lamp paint).HasOutput .studio paint (.plain "c" .vec3) :=
  ⟨.bare paint "paint", by simp [pair], rfl, _, rfl, by decide⟩

/-- Under plain ids both have their variables. -/
theorem own_variables_pair : checkStructure .studio {} (.pair "a" "b") = [] ∧
    (Graph.pair "a" "b").executionOrder {} = .ok ["a", "b"] ∧
    let declared := (Plan.compiling .studio {} (.pair "a" "b") ["a", "b"]).declarations.value
    .variable .float (Symbol.output "a" "b_c") ∈ declared ∧
    .variable .vec3 (Symbol.output "b" "c") ∈ declared := by
  have hstructure : checkStructure .studio {} (.pair "a" "b") = [] := by decide +kernel
  have horder : (Graph.pair "a" "b").executionOrder {} = .ok ["a", "b"] := by decide +kernel
  have hnames : ∀ t ∈ Catalog.studio.types,
      (t.outputs.map fun port => Symbol.clean port.name).Nodup := by decide
  have hown := (own_variables_iff .studio {} (.pair "a" "b") _ hstructure horder).2 (by decide)
    fun id t h => hnames t (List.mem_of_find?_eq_some h)
  exact ⟨hstructure, horder, hown.typed _ _ (Graph.hasOutput_lamp "a" "b"),
    hown.typed _ _ (Graph.hasOutput_paint "a" "b")⟩

/-- A light and a picture share a variable, and it is declared as a float. -/
theorem variable_shared : checkStructure .studio {} (.pair "a" "a_b") = [] ∧
    (Graph.pair "a" "a_b").executionOrder {} = .ok ["a", "a_b"] ∧
    (∀ t ∈ Catalog.studio.types, (t.outputs.map (·.name)).Nodup) ∧
    let declared := (Plan.compiling .studio {} (.pair "a" "a_b") ["a", "a_b"]).declarations.value
    declared = [.variable .float "node_a_b_c"] ∧
    ¬(Graph.pair "a" "a_b").OwnVariables .studio declared := by
  refine ⟨by decide +kernel, by decide +kernel, by decide, by decide +kernel, fun hown => ?_⟩
  have hsame := hown.apart _ _ _ _ (Graph.hasOutput_lamp "a" "a_b")
    (Graph.hasOutput_paint "a" "a_b") (by decide +kernel)
  exact absurd hsame.1 (by decide)

end ShaderGraph
