import ShaderGraph.Uniform

/-!
# What a table of uniforms holds

Looking a parameter or a virtual source up gives a symbol of the table, and every virtual source
that a connection names can be looked up.

The parameters of a table are told apart by node and name. The first node with an id has all its
float parameters in the table, each with the number that it has on that node
(`ofParam_mem_params`). Of the uniforms with one symbol that are used, one is listed, and the list
is in ascending order.
-/

namespace ShaderGraph

namespace UniformTable

variable {t : UniformTable} {symbol : String}

theorem mem_names_of_param? {nodeId param : String} (h : t.param? nodeId param = some symbol) :
    symbol ∈ t.names := by
  obtain ⟨u, hu, rfl⟩ := Option.map_eq_some_iff.1 h
  exact List.mem_map.2 ⟨u, List.mem_append_left _ (List.mem_of_find?_eq_some hu), rfl⟩

theorem mem_names_of_virtual? {sourceId : String} (h : t.virtual? sourceId = some symbol) :
    symbol ∈ t.names := by
  obtain ⟨u, hu, rfl⟩ := Option.map_eq_some_iff.1 h
  exact List.mem_map.2 ⟨u, List.mem_append_right _ (List.mem_of_find?_eq_some hu), rfl⟩

/-- **Every virtual source of the graph has a uniform.** -/
theorem exists_virtual? {catalog : Catalog} {settings : Settings} {g : Graph} {c : Connection}
    (hc : c ∈ g.connections) (hvirtual : settings.isVirtual c.sourceId = true) :
    ∃ symbol, (ofGraph catalog settings g).virtual? c.sourceId = some symbol := by
  have hsource : Uniform.ofVirtual settings c ∈
      (g.connections.filter fun c => settings.isVirtual c.sourceId).map
        (Uniform.ofVirtual settings) :=
    List.mem_map.2 ⟨c, List.mem_filter.2 ⟨hc, hvirtual⟩, rfl⟩
  obtain ⟨u, hu, hid⟩ : ∃ u ∈ distinctOn Uniform.nodeId _, u.nodeId = c.sourceId :=
    exists_mem_distinctOn hsource
  have hfound : ((ofGraph catalog settings g).virtuals.find? (·.nodeId == c.sourceId)).isSome := by
    rw [List.find?_isSome]
    exact ⟨u, List.mem_mergeSort.2 hu, beq_iff_eq.2 hid⟩
  obtain ⟨found, hfound⟩ := Option.isSome_iff_exists.1 hfound
  exact ⟨found.name, by rw [virtual?, hfound]; rfl⟩

end UniformTable

/-! ## Parameters -/

/-- A node of the graph has a float parameter. -/
structure Graph.HasFloat (catalog : Catalog) (g : Graph) (n : Node) (name : String)
    (param : Param) : Prop where
  node : n ∈ g.nodes
  entry : ∃ t, catalog.find? n.type = some t ∧ (name, param) ∈ t.params.entries
  float : param.kind = .float

namespace UniformTable

variable {catalog : Catalog} {settings : Settings} {g : Graph} {n : Node} {t : NodeType}
  {name : String} {param : Param} {u v : Uniform}

theorem mem_ofNode : u ∈ ofNode catalog n ↔ ∃ t, catalog.find? n.type = some t ∧
    ∃ e ∈ t.params.entries, e.2.kind = .float ∧ u = Uniform.ofParam n e.1 e.2 := by
  rw [ofNode]
  cases catalog.find? n.type with
  | none => simp
  | some t =>
    simp only [List.mem_map, List.mem_filter, beq_iff_eq, Option.some.injEq, exists_eq_left']
    constructor
    · rintro ⟨e, ⟨he, hkind⟩, rfl⟩
      exact ⟨e, he, hkind, rfl⟩
    · rintro ⟨e, he, hkind, rfl⟩
      exact ⟨e, ⟨he, hkind⟩, rfl⟩

/-- The parameters of a node have different names. -/
theorem pairwise_ofNode (catalog : Catalog) (n : Node) :
    (ofNode catalog n).Pairwise fun u v => u.key ≠ v.key := by
  rw [ofNode]
  split
  · exact List.Pairwise.nil
  · rename_i t _
    refine List.pairwise_map.2 ((t.params.ascending.filter _).imp fun hlt heq => ?_)
    exact String.ne_of_lt hlt (Prod.mk.inj heq).2

/-- A parameter is kept if the first node with its key is the node that it comes from. -/
theorem mem_params_iff (h : settings.parameterUniforms = true) :
    u ∈ (ofGraph catalog settings g).params ↔
      (g.nodes.flatMap (ofNode catalog)).find? (fun v => decide (v.key = u.key)) = some u := by
  rw [← mem_distinctOn_iff]
  simp only [ofGraph, h, if_true]
  exact List.mem_mergeSort

/-- The parameters of a table have different keys. -/
theorem pairwise_params (catalog : Catalog) (settings : Settings) (g : Graph) :
    (ofGraph catalog settings g).params.Pairwise fun u v => u.key ≠ v.key := by
  simp only [ofGraph]
  split
  · exact ((List.mergeSort_perm _ _).pairwise_iff Ne.symm).2 (distinctOn_pairwise _)
  · exact List.Pairwise.nil

/-- Every parameter of a table is that of a node. -/
theorem exists_of_mem_params (h : u ∈ (ofGraph catalog settings g).params) :
    ∃ n name param, g.HasFloat catalog n name param ∧ u = Uniform.ofParam n name param := by
  have hmem : u ∈ g.nodes.flatMap (ofNode catalog) := by
    simp only [ofGraph] at h
    split at h
    · exact (distinctOn_sublist _).subset (List.mem_mergeSort.1 h)
    · cases h
  obtain ⟨n, hn, hu⟩ := List.mem_flatMap.1 hmem
  obtain ⟨t, ht, e, he, hkind, rfl⟩ := mem_ofNode.1 hu
  exact ⟨n, e.1, e.2, ⟨hn, ⟨t, ht, he⟩, hkind⟩, rfl⟩

/-- **The first node with an id has its float parameters in the table**, with its own numbers. -/
theorem ofParam_mem_params (h : settings.parameterUniforms = true) (hn : g.node? n.id = some n)
    (ht : catalog.find? n.type = some t) (he : (name, param) ∈ t.params.entries)
    (hkind : param.kind = .float) :
    Uniform.ofParam n name param ∈ (ofGraph catalog settings g).params := by
  obtain ⟨-, before, after, hnodes, hbefore⟩ := List.find?_eq_some_iff_append.1 hn
  have hskip : before.findSome? (fun m => (ofNode catalog m).find? fun v =>
      decide (v.key = (Uniform.ofParam n name param).key)) = none := by
    refine List.findSome?_eq_none_iff.2 fun m hm => List.find?_eq_none.2 fun v hv => ?_
    -- the uniforms of an earlier node are under another id
    obtain ⟨-, -, e, -, -, rfl⟩ := mem_ofNode.1 hv
    have hid : m.id ≠ n.id := by simpa using hbefore m hm
    simp [Uniform.key, Uniform.ofParam, hid]
  have hown : (ofNode catalog n).find? (fun v =>
      decide (v.key = (Uniform.ofParam n name param).key))
        = some (Uniform.ofParam n name param) := by
    have hmem : Uniform.ofParam n name param ∈ ofNode catalog n :=
      mem_ofNode.2 ⟨t, ht, (name, param), he, hkind, rfl⟩
    rw [← List.head?_filter, filter_eq_singleton (pairwise_ofNode catalog n) hmem]
    rfl
  rw [mem_params_iff h, List.find?_flatMap, hnodes, List.findSome?_append, hskip, Option.none_or,
    List.findSome?_cons, hown]

/-- The uniform of a parameter. -/
def uniform? (t : UniformTable) (nodeId param : String) : Option Uniform :=
  t.params.find? fun u => u.nodeId == nodeId && u.paramName == param

theorem param?_eq (t : UniformTable) (nodeId param : String) :
    t.param? nodeId param = (t.uniform? nodeId param).map (·.name) := rfl

/-- A uniform of the table is found under its node and parameter. -/
theorem uniform?_of_mem (h : u ∈ (ofGraph catalog settings g).params) :
    (ofGraph catalog settings g).uniform? u.nodeId u.paramName = some u := by
  have hkey : ∀ v : Uniform, (v.nodeId == u.nodeId && v.paramName == u.paramName)
      = decide (v.key = u.key) := by
    intro v
    rw [Bool.eq_iff_iff]
    simp [Uniform.key]
  simp only [uniform?, hkey]
  rw [← List.head?_filter, filter_eq_singleton (pairwise_params catalog settings g) h]
  rfl

/-- The uniform of a parameter is one. -/
theorem eq_of_mem_params (hu : u ∈ (ofGraph catalog settings g).params)
    (hv : v ∈ (ofGraph catalog settings g).params) (hid : u.nodeId = v.nodeId)
    (hname : u.paramName = v.paramName) : u = v := by
  have hfound := uniform?_of_mem hu
  rw [hid, hname, uniform?_of_mem hv] at hfound
  exact (Option.some.inj hfound).symm

/-- The uniform of a parameter is that of the first node with the id that has the parameter. -/
theorem uniform?_ofGraph (h : settings.parameterUniforms = true) (nodeId name : String) :
    (ofGraph catalog settings g).uniform? nodeId name
      = (g.nodes.flatMap (ofNode catalog)).find? fun u => decide (u.key = (nodeId, name)) := by
  cases hfound :
      (g.nodes.flatMap (ofNode catalog)).find? fun u => decide (u.key = (nodeId, name)) with
  | some u =>
    have hkey : u.key = (nodeId, name) := by simpa using List.find?_some hfound
    have hmem : u ∈ (ofGraph catalog settings g).params := by
      rw [mem_params_iff h, hkey, hfound]
    obtain ⟨rfl, rfl⟩ := Prod.mk.inj hkey
    exact uniform?_of_mem hmem
  | none =>
    refine List.find?_eq_none.2 fun u hu hfits => ?_
    have hkey : u.key = (nodeId, name) := by simpa [Uniform.key] using hfits
    have hfirst := (mem_params_iff h).1 hu
    rw [hkey, hfound] at hfirst
    cases hfirst

theorem uniform?_ofGraph_of_off (h : settings.parameterUniforms = false) (nodeId name : String) :
    (ofGraph catalog settings g).uniform? nodeId name = none := by
  simp [uniform?, ofGraph, h]

/-- The symbols of a node are those found for its parameters. -/
theorem mem_namesOf {symbol nodeId : String} : symbol ∈ (ofGraph catalog settings g).namesOf nodeId
    ↔ ∃ name, (ofGraph catalog settings g).param? nodeId name = some symbol := by
  simp only [namesOf, List.mem_map, List.mem_filter, beq_iff_eq, param?_eq,
    Option.map_eq_some_iff]
  constructor
  · rintro ⟨u, ⟨hu, rfl⟩, rfl⟩
    exact ⟨u.paramName, u, uniform?_of_mem hu, rfl⟩
  · rintro ⟨name, u, hu, rfl⟩
    have hfits := List.find?_some hu
    simp only [Bool.and_eq_true, beq_iff_eq] at hfits
    exact ⟨u, ⟨List.mem_of_find?_eq_some hu, hfits.1⟩, rfl⟩

/-- The uniform of a virtual source is that of a connection from it. -/
theorem exists_of_mem_virtuals (h : u ∈ (ofGraph catalog settings g).virtuals) :
    ∃ c ∈ g.connections, u = Uniform.ofVirtual settings c := by
  have hmem := (distinctOn_sublist _).subset (List.mem_mergeSort.1 h)
  obtain ⟨c, hc, rfl⟩ := List.mem_map.1 hmem
  exact ⟨c, (List.mem_filter.1 hc).1, rfl⟩

/-! ## What is used -/

variable {table : UniformTable} {symbols : List String}

/-- Listed are uniforms of the table whose symbols are used. -/
theorem mem_all_of_mem_used (h : u ∈ table.used symbols) : u ∈ table.all ∧ u.name ∈ symbols := by
  have hsorted := (distinctOn_sublist _).subset h
  obtain ⟨hall, hused⟩ := List.mem_filter.1 (List.mem_mergeSort.1 hsorted)
  exact ⟨hall, by simpa using hused⟩

/-- A symbol of the table is listed exactly if it is used. -/
theorem mem_names_used {symbol : String} :
    symbol ∈ (table.used symbols).map (·.name) ↔ symbol ∈ table.names ∧ symbol ∈ symbols := by
  constructor
  · intro h
    obtain ⟨u, hu, rfl⟩ := List.mem_map.1 h
    obtain ⟨hall, hused⟩ := mem_all_of_mem_used hu
    exact ⟨List.mem_map.2 ⟨u, hall, rfl⟩, hused⟩
  · rintro ⟨hname, hused⟩
    obtain ⟨u, hu, rfl⟩ := List.mem_map.1 hname
    refine mem_map_distinctOn.2 (List.mem_map.2 ⟨u, List.mem_mergeSort.2 ?_, rfl⟩)
    exact List.mem_filter.2 ⟨hu, by simpa using hused⟩

/-- **The list is in ascending order**, each symbol once. -/
theorem pairwise_used (table : UniformTable) (symbols : List String) :
    (table.used symbols).Pairwise fun u v => u.name < v.name := by
  have htrans : ∀ a b c : Uniform, Uniform.nameLe a b = true → Uniform.nameLe b c = true →
      Uniform.nameLe a c = true := by
    intro a b c hab hbc
    exact decide_eq_true (String.le_trans (of_decide_eq_true hab) (of_decide_eq_true hbc))
  have htotal : ∀ a b : Uniform, (Uniform.nameLe a b || Uniform.nameLe b a) = true := by
    intro a b
    rcases String.le_total a.name b.name with h | h
    · exact Bool.or_eq_true_iff.2 (Or.inl (decide_eq_true h))
    · exact Bool.or_eq_true_iff.2 (Or.inr (decide_eq_true h))
  have hsorted := List.pairwise_mergeSort htrans htotal
    (table.all.filter fun u => symbols.contains u.name)
  have hle := hsorted.sublist (@distinctOn_sublist _ _ _ Uniform.name _)
  refine List.Pairwise.imp₂ (fun u v hle hne => ?_) hle (distinctOn_pairwise _)
  exact String.not_le.1 fun hge => hne (String.le_antisymm (of_decide_eq_true hle) hge)

theorem filter_name_used (h : u ∈ table.used symbols) :
    (table.used symbols).filter (fun v => decide (v.name = u.name)) = [u] :=
  filter_eq_singleton (distinctOn_pairwise _) h

/-- A uniform that shares its symbol with no other is listed if the symbol is used. -/
theorem filter_name_used_of_unique (hu : u ∈ table.all)
    (hown : ∀ v ∈ table.all, v.name = u.name → v = u) (hused : u.name ∈ symbols) :
    (table.used symbols).filter (fun v => decide (v.name = u.name)) = [u] := by
  have hname : u.name ∈ (table.used symbols).map (·.name) :=
    mem_names_used.2 ⟨List.mem_map.2 ⟨u, hu, rfl⟩, hused⟩
  obtain ⟨v, hv, hsame⟩ := List.mem_map.1 hname
  obtain rfl : v = u := hown v (mem_all_of_mem_used hv).1 hsame
  exact filter_name_used hv

end UniformTable

end ShaderGraph
