import ShaderGraph.Proofs.OutputVariables

/-!
# Symbols of uniforms

The uniform of a parameter is named after its node and itself: the id and the name with a capital,
one right behind the other. Nothing marks where the id ends, so the uniforms of two parameters share
a symbol exactly if the id of the one goes on with what the name of the other starts with
(`Symbol.uniform_eq_uniform_iff`). Capitals do not help: an id may hold them, and names that differ
in the case of their first letter have the same capital.

A program lists one uniform for a symbol. So every parameter keeps a uniform of its own exactly if
no two overlap in this way. They do not if no id starts with another one and the parameters of each
type have names that differ with a capital.
-/

namespace ShaderGraph

/-! ## Names that overlap -/

namespace Symbol

variable {a b p q : String}

/-- The id of the second parameter is that of the first and goes on with what the name of the first
starts with; the rest of that is the name of the second. -/
def Overlap (a p b q : String) : Prop :=
  ∃ shared, b = a ++ shared ∧ capitalize p = shared ++ capitalize q

theorem toList_uniform (ha : a.toList.all Char.isAlphanum = true)
    (hp : p.toList.all Char.isAlphanum = true) :
    (uniform a p).toList = 'u' :: (a.toList ++ (capitalize p).toList) := by
  rw [uniform, clean_of_isAlphanum ha, clean_of_isAlphanum hp, String.toList_append,
    String.toList_append]
  rfl

theorem uniform_eq_of_overlap (ha : a.toList.all Char.isAlphanum = true)
    (hb : b.toList.all Char.isAlphanum = true) (hp : p.toList.all Char.isAlphanum = true)
    (hq : q.toList.all Char.isAlphanum = true) (h : Overlap a p b q) :
    uniform a p = uniform b q := by
  obtain ⟨shared, rfl, hname⟩ := h
  rw [← String.toList_inj, toList_uniform ha hp, toList_uniform hb hq, hname, String.toList_append,
    String.toList_append, List.append_assoc]

/-- **Uniforms share a symbol exactly if their names overlap**, where ids and names consist of
letters and digits. -/
theorem uniform_eq_uniform_iff (ha : a.toList.all Char.isAlphanum = true)
    (hb : b.toList.all Char.isAlphanum = true) (hp : p.toList.all Char.isAlphanum = true)
    (hq : q.toList.all Char.isAlphanum = true) :
    uniform a p = uniform b q ↔ Overlap a p b q ∨ Overlap b q a p := by
  constructor
  · intro h
    rw [← String.toList_inj, toList_uniform ha hp, toList_uniform hb hq, List.cons.injEq] at h
    -- one of the ids is the shorter one, and what it lacks stands at the front of its name
    rcases List.append_eq_append_iff.1 h.2 with ⟨shared, hid, hname⟩ | ⟨shared, hid, hname⟩
    · refine Or.inl ⟨String.ofList shared, ?_, ?_⟩
      · rw [← String.toList_inj, hid, String.toList_append, String.toList_ofList]
      · rw [← String.toList_inj, hname, String.toList_append, String.toList_ofList]
    · refine Or.inr ⟨String.ofList shared, ?_, ?_⟩
      · rw [← String.toList_inj, hid, String.toList_append, String.toList_ofList]
      · rw [← String.toList_inj, hname, String.toList_append, String.toList_ofList]
  · rintro (h | h)
    · exact uniform_eq_of_overlap ha hb hp hq h
    · exact (uniform_eq_of_overlap hb ha hq hp h).symm

/-- The symbols for virtual sources hold underscores, and those for plain parameters do not. -/
theorem uniform_ne_virtualUniform (ha : a.toList.all Char.isAlphanum = true)
    (hp : p.toList.all Char.isAlphanum = true) (mark sourceId : String) :
    uniform a p ≠ virtualUniform mark sourceId := by
  intro h
  have hcapital : ∀ c ∈ (capitalize p).toList, c.isAlphanum = true :=
    forall_mem_capitalize Char.isAlphanum (fun _ => isAlphanum_toUpper) (List.all_eq_true.1 hp)
  have hbar : '_' ∈ (virtualUniform mark sourceId).toList := by
    simp [virtualUniform, String.toList_append]
  rw [← h, toList_uniform ha hp, List.mem_cons, List.mem_append] at hbar
  rcases hbar with hbar | hbar | hbar
  · exact absurd hbar (by decide)
  · exact absurd (List.all_eq_true.1 ha _ hbar) (by decide)
  · exact absurd (hcapital _ hbar) (by decide)

end Symbol

/-! ## Parameters of a graph -/

/-- No two float parameters of the graph share a symbol. -/
def Graph.UniformsApart (catalog : Catalog) (g : Graph) : Prop :=
  ∀ n name param n' name' param', g.HasFloat catalog n name param →
    g.HasFloat catalog n' name' param' → Symbol.uniform n.id name = Symbol.uniform n'.id name' →
    n.id = n'.id ∧ name = name'

/-- Every float parameter of the graph has a uniform of its own: a symbol that no other parameter
has, and with all symbols used, one entry under that symbol, which is its own. -/
structure Graph.OwnUniforms (catalog : Catalog) (g : Graph) (table : UniformTable) : Prop where
  named : ∀ n name param, g.HasFloat catalog n name param →
    table.param? n.id name = some (Symbol.uniform n.id name)
  apart : g.UniformsApart catalog
  kept : ∀ n name param, g.HasFloat catalog n name param →
    (table.used table.names).filter (fun u => u.name = Symbol.uniform n.id name)
      = [Uniform.ofParam n name param]

/-- Ids and names of float parameters consist of letters and digits, and no id stands twice. -/
structure Graph.PlainNames (catalog : Catalog) (g : Graph) : Prop where
  nodup : (g.nodes.map (·.id)).Nodup
  ids : ∀ n ∈ g.nodes, n.id.toList.all Char.isAlphanum = true
  names : ∀ n name param, g.HasFloat catalog n name param →
    name.toList.all Char.isAlphanum = true

namespace Graph.PlainNames

variable {catalog : Catalog} {settings : Settings} {g : Graph} (hg : g.PlainNames catalog)
  {n n' : Node} {name name' : String} {param param' : Param}

include hg

theorem uniform_eq_iff (h : g.HasFloat catalog n name param)
    (h' : g.HasFloat catalog n' name' param') :
    Symbol.uniform n.id name = Symbol.uniform n'.id name' ↔
      Symbol.Overlap n.id name n'.id name' ∨ Symbol.Overlap n'.id name' n.id name :=
  Symbol.uniform_eq_uniform_iff (hg.ids n h.node) (hg.ids n' h'.node) (hg.names _ _ _ h)
    (hg.names _ _ _ h')

/-- The table has the uniform of every parameter. -/
theorem ofParam_mem (hsettings : settings.parameterUniforms = true)
    (h : g.HasFloat catalog n name param) :
    Uniform.ofParam n name param ∈ (UniformTable.ofGraph catalog settings g).params := by
  obtain ⟨t, ht, he⟩ := h.entry
  exact UniformTable.ofParam_mem_params hsettings (node?_eq_some hg.nodup h.node) ht he h.float

/-- Parameters that share no symbol have uniforms of their own. -/
theorem ownUniforms_of_apart (hsettings : settings.parameterUniforms = true)
    (hapart : g.UniformsApart catalog) :
    g.OwnUniforms catalog (UniformTable.ofGraph catalog settings g) := by
  refine ⟨fun n name param h => ?_, hapart, fun n name param h => ?_⟩
  · have hfound := UniformTable.uniform?_of_mem (hg.ofParam_mem hsettings h)
    exact congrArg (Option.map Uniform.name) hfound
  · have hmem := hg.ofParam_mem hsettings h
    have hall : Uniform.ofParam n name param ∈ (UniformTable.ofGraph catalog settings g).all :=
      List.mem_append_left _ hmem
    refine UniformTable.filter_name_used_of_unique hall (fun v hv hname => ?_)
      (List.mem_map.2 ⟨_, hall, rfl⟩)
    -- what has the symbol is the uniform of a parameter, and there is no other
    rcases List.mem_append.1 hv with hparam | hvirtual
    · obtain ⟨m, other, p, hm, rfl⟩ := UniformTable.exists_of_mem_params hparam
      obtain ⟨hid, hother⟩ := hapart _ _ _ _ _ _ hm h hname
      exact UniformTable.eq_of_mem_params hparam hmem hid hother
    · obtain ⟨c, -, rfl⟩ := UniformTable.exists_of_mem_virtuals hvirtual
      exact absurd hname.symm (Symbol.uniform_ne_virtualUniform (hg.ids n h.node)
        (hg.names _ _ _ h) _ _)

/-- Ids of which none starts with another keep uniforms apart, if the names of each type differ with
a capital. -/
theorem uniformsApart
    (hids : ∀ n ∈ g.nodes, ∀ n' ∈ g.nodes, n.id.toList <+: n'.id.toList → n.id = n'.id)
    (hnames : ∀ id t, catalog.find? id = some t →
      ((t.params.entries.filter fun e => e.2.kind == .float).map
        fun e => Symbol.capitalize e.1).Nodup) :
    g.UniformsApart catalog := by
  -- the shorter id starts the longer one, so they are the same and nothing is shared
  have hoverlap : ∀ {n n' : Node} {name name' : String} {param param' : Param},
      g.HasFloat catalog n name param → g.HasFloat catalog n' name' param' →
      Symbol.Overlap n.id name n'.id name' → n.id = n'.id ∧ name = name' := by
    rintro n n' name name' param param' h h' ⟨shared, hid, hname⟩
    have hsame : n.id = n'.id := by
      refine hids n h.node n' h'.node ⟨shared.toList, ?_⟩
      rw [hid, String.toList_append]
    obtain rfl : n = n' := List.inj_on_of_nodup_map hg.nodup h.node h'.node hsame
    obtain ⟨t, ht, he⟩ := h.entry
    obtain ⟨t', ht', he'⟩ := h'.entry
    obtain rfl : t = t' := Option.some.inj (ht.symm.trans ht')
    have hshared : shared = "" := by
      rw [← String.toList_inj, String.toList_append] at hid
      rw [← String.toList_inj]
      exact List.self_eq_append_right.1 hid
    have hcapital : Symbol.capitalize name = Symbol.capitalize name' := by
      rw [hname, hshared, String.empty_append]
    have hentry := List.inj_on_of_nodup_map (hnames _ t ht)
      (List.mem_filter.2 ⟨he, beq_iff_eq.2 h.float⟩)
      (List.mem_filter.2 ⟨he', beq_iff_eq.2 h'.float⟩) hcapital
    exact ⟨rfl, (Prod.mk.inj hentry).1⟩
  intro n name param n' name' param' h h' heq
  rcases (hg.uniform_eq_iff h h').1 heq with hover | hover
  · exact hoverlap h h' hover
  · exact (hoverlap h' h hover).imp Eq.symm Eq.symm

end Graph.PlainNames

/-- **Every float parameter has its own uniform exactly if no two names overlap.** For every graph
whose ids are different and consist, like the names of its float parameters, of letters and digits:
with uniforms for parameters on, different parameters have different symbols, and with all symbols
used each has one entry under its symbol, exactly if no id goes on from another id with what a
parameter of the other starts with and then its own parameter. That is so if no id starts with
another one and the names of the float parameters of each type differ with a capital. -/
theorem own_uniforms_iff (catalog : Catalog) (settings : Settings) (g : Graph)
    (hsettings : settings.parameterUniforms = true) (hg : g.PlainNames catalog) :
    let table := UniformTable.ofGraph catalog settings g
    (g.OwnUniforms catalog table ↔
      ∀ n name param n' name' param', g.HasFloat catalog n name param →
        g.HasFloat catalog n' name' param' → Symbol.Overlap n.id name n'.id name' →
        n.id = n'.id ∧ name = name') ∧
    ((∀ n ∈ g.nodes, ∀ n' ∈ g.nodes, n.id.toList <+: n'.id.toList → n.id = n'.id) →
      (∀ id t, catalog.find? id = some t →
        ((t.params.entries.filter fun e => e.2.kind == .float).map
          fun e => Symbol.capitalize e.1).Nodup) →
      g.OwnUniforms catalog table) := by
  intro table
  refine ⟨⟨fun hown => ?_, fun hoverlap => ?_⟩, fun hids hnames => ?_⟩
  · intro n name param n' name' param' h h' hover
    exact hown.apart _ _ _ _ _ _ h h' ((hg.uniform_eq_iff h h').2 (Or.inl hover))
  · refine hg.ownUniforms_of_apart hsettings fun n name param n' name' param' h h' heq => ?_
    rcases (hg.uniform_eq_iff h h').1 heq with hover | hover
    · exact hoverlap _ _ _ _ _ _ h h' hover
    · exact (hoverlap _ _ _ _ _ _ h' h hover).imp Eq.symm Eq.symm
  · exact hg.ownUniforms_of_apart hsettings (hg.uniformsApart hids hnames)

/-- A type with two gaps to set. -/
def Catalog.honeycomb : Catalog := .ofList
  [((NodeType.bare "hex" "pattern").withParam "gap" (.float 0)).withParam "hexGap" (.float 1)]

/-- A graph of two nodes of that type. -/
def Graph.cells (first second : String) : Graph where
  id := "cells"
  name := "cells"
  version := formatVersion
  nodes := [.bare first "hex", .bare second "hex"]
  connections := []
  lanes := []

theorem Graph.plainNames_cells {first second : String} (hne : first ≠ second)
    (hfirst : first.toList.all Char.isAlphanum = true)
    (hsecond : second.toList.all Char.isAlphanum = true) :
    (Graph.cells first second).PlainNames .honeycomb where
  nodup := by simpa [cells, Node.bare] using hne
  ids := by simpa [cells, Node.bare] using And.intro hfirst hsecond
  names := by
    have hplain : ∀ t ∈ Catalog.honeycomb.types, ∀ e ∈ t.params.entries,
        e.1.toList.all Char.isAlphanum = true := by decide +kernel
    intro n name param h
    obtain ⟨t, ht, he⟩ := h.entry
    exact hplain t (List.mem_of_find?_eq_some ht) _ he

/-- Under ids of which none starts the other, both nodes have their uniforms. -/
theorem own_uniforms_cells : (Graph.cells "n" "m").PlainNames .honeycomb ∧
    (Graph.cells "n" "m").OwnUniforms .honeycomb
      (UniformTable.ofGraph .honeycomb {} (.cells "n" "m")) := by
  have hplain : (Graph.cells "n" "m").PlainNames .honeycomb :=
    Graph.plainNames_cells (by decide) (by decide) (by decide)
  have hnames : ∀ t ∈ Catalog.honeycomb.types,
      ((t.params.entries.filter fun e => e.2.kind == .float).map
        fun e => Symbol.capitalize e.1).Nodup := by decide +kernel
  refine ⟨hplain, (own_uniforms_iff .honeycomb {} _ rfl hplain).2 ?_ fun id t h =>
    hnames t (List.mem_of_find?_eq_some h)⟩
  simp [Graph.cells, Node.bare]

/-- The uniforms of two such nodes, the second with an id that goes on from the first. -/
def Uniform.ofCells : List Uniform :=
  [⟨"unGap", "n", "gap", .float, 0⟩, ⟨"unHexGap", "n", "hexGap", .float, 1⟩,
    ⟨"unHexGap", "nHex", "gap", .float, 0⟩, ⟨"unHexHexGap", "nHex", "hexGap", .float, 1⟩]

theorem Symbol.uniform_cells : uniform "n" "gap" = "unGap" ∧ uniform "n" "hexGap" = "unHexGap" ∧
    uniform "nHex" "gap" = "unHexGap" ∧ uniform "nHex" "hexGap" = "unHexHexGap" := by
  decide +kernel

theorem UniformTable.all_cells :
    (UniformTable.ofGraph .honeycomb {} (.cells "n" "nHex")).all = Uniform.ofCells := by
  have hnode : ∀ id, UniformTable.ofNode .honeycomb (.bare id "hex") =
      [⟨Symbol.uniform id "gap", id, "gap", .float, 0⟩,
        ⟨Symbol.uniform id "hexGap", id, "hexGap", .float, 1⟩] := fun _ => rfl
  have hnodes : (Graph.cells "n" "nHex").nodes.flatMap (UniformTable.ofNode .honeycomb)
      = Uniform.ofCells := by
    simp [Graph.cells, hnode, Symbol.uniform_cells, Uniform.ofCells]
  have hparams : (UniformTable.ofGraph .honeycomb {} (.cells "n" "nHex")).params
      = Uniform.ofCells := by
    have hdistinct : distinctOn Uniform.key Uniform.ofCells = Uniform.ofCells := rfl
    simp only [UniformTable.ofGraph, hnodes, hdistinct, if_true]
    exact List.mergeSort_of_pairwise (by decide +kernel)
  have hvirtuals : (UniformTable.ofGraph .honeycomb {} (.cells "n" "nHex")).virtuals = [] :=
    List.mergeSort_of_pairwise List.Pairwise.nil
  rw [UniformTable.all, hparams, hvirtuals, List.append_nil]

/-- The `gap` of the second node and the `hexGap` of the first share a symbol, and one entry is
lost. -/
theorem uniform_lost : (Graph.cells "n" "nHex").PlainNames .honeycomb ∧
    let table := UniformTable.ofGraph .honeycomb {} (.cells "n" "nHex")
    ¬(Graph.cells "n" "nHex").OwnUniforms .honeycomb table ∧
    table.names = ["unGap", "unHexGap", "unHexGap", "unHexHexGap"] ∧
    (table.used table.names).map Uniform.key
      = [("n", "gap"), ("n", "hexGap"), ("nHex", "hexGap")] := by
  have hnames : (UniformTable.ofGraph .honeycomb {} (.cells "n" "nHex")).names
      = ["unGap", "unHexGap", "unHexGap", "unHexHexGap"] := by
    rw [UniformTable.names, UniformTable.all_cells]
    rfl
  obtain ⟨-, hfirst, hsecond, -⟩ := Symbol.uniform_cells
  refine ⟨Graph.plainNames_cells (by decide) (by decide) (by decide), fun hown => ?_, hnames, ?_⟩
  · have hsame := hown.apart (.bare "n" "hex") "hexGap" (.float 1) (.bare "nHex" "hex") "gap"
      (.float 0) ⟨by simp [Graph.cells], ⟨_, rfl, List.mem_cons_of_mem _ List.mem_cons_self⟩, rfl⟩
      ⟨by simp [Graph.cells], ⟨_, rfl, List.mem_cons_self⟩, rfl⟩ (hfirst.trans hsecond.symm)
    exact absurd hsame.1 (by decide)
  · have hused : ∀ u ∈ Uniform.ofCells,
        ["unGap", "unHexGap", "unHexGap", "unHexHexGap"].contains u.name = true := by
      decide +kernel
    have hsorted : Uniform.ofCells.mergeSort Uniform.nameLe = Uniform.ofCells :=
      List.mergeSort_of_pairwise (by decide +kernel)
    rw [UniformTable.used, UniformTable.all_cells, hnames, List.filter_eq_self.2 hused, hsorted]
    rfl

end ShaderGraph
