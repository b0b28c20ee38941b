import ShaderGraph.Proofs.Cycles
import ShaderGraph.Proofs.Declarations
import ShaderGraph.Proofs.Indentation
import ShaderGraph.Proofs.ProgramIdentifiers
import ShaderGraph.Proofs.Uniforms

/-!
# The uniforms that a program uses

The code of a node is indented and put in braces before it is searched for uniforms, and this keeps
its identifiers.

What a program uses is collected from its sections, before they are trimmed, joined and put into the
frame. The program reads the same: an identifier of its text is one of the frame, of the version, of
the lines that declare uniforms or of a section. So a uniform is listed exactly if the program
mentions it, and then it does so below the line that declares it.
-/

namespace ShaderGraph

/-! ## Names and lines of uniforms -/

namespace Symbol

theorem isWordChar_toUpper {c : Char} (h : Text.isWordChar c = true) :
    Text.isWordChar c.toUpper = true := by
  rw [Text.isWordChar, Bool.or_eq_true, beq_iff_eq] at h
  rcases h with h | rfl
  · rw [Text.isWordChar, isAlphanum_toUpper h, Bool.true_or]
  · decide

/-- The symbol for a parameter is an identifier, whatever the id and the name. -/
theorem isIdentifier_uniform (nodeId param : String) :
    Text.isIdentifier (uniform nodeId param).toList = true := by
  have hword : ∀ c ∈ (uniform nodeId param).toList, Text.isWordChar c = true := by
    have hcapital : ∀ c ∈ (capitalize (clean param)).toList, Text.isWordChar c = true :=
      forall_mem_capitalize Text.isWordChar (fun _ => isWordChar_toUpper)
        fun _ => isWordChar_of_mem_clean
    intro c hc
    simp only [uniform, String.toList_append, List.mem_append] at hc
    rcases hc with (hc | hc) | hc
    · obtain rfl : c = 'u' := by simpa using hc
      decide
    · exact isWordChar_of_mem_clean hc
    · exact hcapital c hc
  rw [Text.isIdentifier, List.all_eq_true.2 hword, Bool.and_true, uniform, String.toList_append,
    String.toList_append]
  rfl

/-- And so is the symbol for a virtual source. -/
theorem isIdentifier_virtualUniform (mark sourceId : String) :
    Text.isIdentifier (virtualUniform mark sourceId).toList = true := by
  have hword : ∀ c ∈ (virtualUniform mark sourceId).toList, Text.isWordChar c = true := by
    have hmark : "u_virtual_".toList.all Text.isWordChar = true := by decide
    intro c hc
    rw [virtualUniform, String.toList_append, List.mem_append] at hc
    rcases hc with hc | hc
    · exact List.all_eq_true.1 hmark c hc
    · exact isWordChar_of_mem_clean hc
  rw [Text.isIdentifier, List.all_eq_true.2 hword, Bool.and_true, virtualUniform,
    String.toList_append]
  rfl

end Symbol

variable {catalog : Catalog} {settings : Settings} {g : Graph}

/-- The uniforms of a table are floats under identifiers. -/
theorem UniformTable.float_of_mem_all {u : Uniform} (h : u ∈ (ofGraph catalog settings g).all) :
    u.type = .float ∧ Text.isIdentifier u.name.toList = true := by
  rcases List.mem_append.1 h with hparam | hvirtual
  · obtain ⟨n, name, param, -, rfl⟩ := exists_of_mem_params hparam
    exact ⟨rfl, Symbol.isIdentifier_uniform _ _⟩
  · obtain ⟨c, -, rfl⟩ := exists_of_mem_virtuals hvirtual
    exact ⟨rfl, Symbol.isIdentifier_virtualUniform _ _⟩

/-- The line of a uniform has its name beside two words of the frame, and nothing runs into it. -/
theorem Uniform.line_closed {u : Uniform} (htype : u.type = .float)
    (hname : Text.isIdentifier u.name.toList = true) :
    Glsl.identifiers u.line = ["uniform", "float", u.name] ∧
      Glsl.ClosedBy '\n' u.line.toList ∧ Text.Unmarked u.line.toList := by
  let words := [("uniform".toList, ' '), ("float".toList, ' '), (u.name.toList, ';')]
  have hline : u.line.toList = words.flatMap fun w => w.1 ++ [w.2] := by
    simp [words, line, htype, ValueType.name, String.toList_append]
  have hwords : ∀ w ∈ words, Text.isIdentifier w.1 = true ∧ Glsl.isBreak w.2 = true := by
    simp only [words, List.forall_mem_cons]
    exact ⟨by decide, by decide, ⟨hname, by decide⟩, by simp⟩
  obtain ⟨hnames, hstate⟩ := Glsl.names_of_words hwords
  refine ⟨?_, ?_, .of_not_mem fun hbrace => ?_⟩
  · rw [Glsl.identifiers_eq, hline, hnames]
    simp [words]
  · rw [hline]
    exact Glsl.closedBy_of_code (by decide) hstate
  · have hmem : '\x7b' ∈ u.name.toList := by simpa [hline, words] using hbrace
    cases List.all_eq_true.1 (Bool.and_eq_true_iff.1 hname).2 _ hmem

/-! ## Indented code -/

/-- The code of a node in braces has the identifiers of the code. The brace that closes it may end
up in a comment or a string of the code, and is no word there either. -/
theorem identifiers_braced (code : String) :
    Glsl.identifiers (braced code) = Glsl.identifiers code := by
  have hfront : "    \x7b\n".toList.all Glsl.isBreak = true := by decide
  have hback : "    \x7d".toList.all (fun c => !Text.isWordChar c) = true := by decide
  have htext : (braced code).toList
      = "    \x7b\n".toList ++ ((Text.indent 8 code).toList ++ '\n' :: "    \x7d".toList) := by
    simp [braced]
  rw [← Glsl.identifiers_indent 8 code, Glsl.identifiers_eq, Glsl.identifiers_eq, htext,
    (Glsl.append_of_isBreak (List.all_eq_true.1 hfront) _).1]
  have hwordless : ∀ c ∈ "    \x7d".toList, Text.isWordChar c = false :=
    fun c hc => by simpa using List.all_eq_true.1 hback c hc
  have hnames := Glsl.namesFrom_append_cons (by decide : Text.isBlank '\n' = true)
    (.inside .code) (Text.indent 8 code).toList "    \x7d".toList
  rw [Glsl.namesFrom_of_not_isWordChar hwordless, List.append_nil] at hnames
  exact congrArg (List.map String.ofList) hnames

/-- **Indentation keeps the identifiers of code**, in order and as often as they stand there, for
every width and every text. So a uniform of a table is seen in the indented body of a node exactly
if the code of the node refers to it. -/
theorem indented_code_seen (width : Nat) (code : String) (table : UniformTable) :
    Glsl.identifiers (Text.indent width code) = Glsl.identifiers code ∧
    ∀ name, name ∈ (table.used (Glsl.identifiers (braced code))).map (·.name) ↔
      name ∈ table.names ∧ name ∈ Glsl.identifiers code := by
  refine ⟨Glsl.identifiers_indent width code, fun name => ?_⟩
  rw [UniformTable.mem_names_used, identifiers_braced]

/-- An escape takes a trailing blank with it before the code is indented and the line feed after
that; a quote on the next line closes the string either way. -/
example : Text.indent 2 "a\t\n\"b\\ \r\n\" c /* d\n\ne */ f // \"" =
    "  a\n  \"b\\\n  \" c /* d\n\n  e */ f // \"" ∧
    Glsl.identifiers "a\t\n\"b\\ \r\n\" c /* d\n\ne */ f // \"" = ["a", "c", "f"] := by
  decide +kernel

/-! ## What is listed is what is read -/

/-- A program whose sections are closed and hold no marks is sealed: what the compiler adds does no
harm. -/
theorem sealed_compileOrdered {order : List String}
    (hversion : settings.glslVersion.toList.all (fun c => c.isAlphanum || c == ' ') = true)
    (hclosed : ∀ text ∈ (compileOrdered catalog settings g order).program.globals
        ++ (compileOrdered catalog settings g order).program.functions
        ++ (compileOrdered catalog settings g order).program.bodies,
      Glsl.ClosedBy '\n' text.toList ∧ Text.Unmarked text.toList)
    (hcolor : Glsl.stateAfter (.inside .code)
      (compileOrdered catalog settings g order).program.color.toList = .inside .code) :
    (compileOrdered catalog settings g order).program.Sealed := by
  have hlines : ∀ text ∈ (compileOrdered catalog settings g order).program.uniforms,
      Glsl.ClosedBy '\n' text.toList ∧ Text.Unmarked text.toList := by
    intro text htext
    obtain ⟨u, hu, rfl⟩ := List.mem_map.1 htext
    obtain ⟨htype, hname⟩ := UniformTable.float_of_mem_all (UniformTable.mem_all_of_mem_used hu).1
    exact (Uniform.line_closed htype hname).2
  have hall := List.forall_mem_append.2 ⟨hlines, hclosed⟩
  rw [← List.append_assoc, ← List.append_assoc] at hall
  exact ⟨hversion, fun text htext => (hall text htext).1, fun text htext => (hall text htext).2,
    hcolor⟩

/-- **The uniforms of a program are exactly those that it reads.** For every compilation that
succeeds, in which every line, function and body ends outside block comments and strings and has no
two opening braces in a row, the colour ends in the code, the version consists of letters, digits
and blanks, and no uniform of the table is named like an identifier of the version or of the program
without parts: the list is in strictly ascending order; a symbol of the table is listed exactly if
it is an identifier of the text; and every uniform that is listed is an identifier below the line
that declares it. -/
theorem uniforms_read (catalog : Catalog) (settings : Settings) (g : Graph) (c : Compilation)
    (hc : compile catalog settings g = .ok c)
    (hclosed : ∀ text ∈ c.program.globals ++ c.program.functions ++ c.program.bodies,
      Glsl.stateAfter (.inside .code) text.toList = .inside .code ∨
        Glsl.stateAfter (.inside .code) text.toList = .inside .lineComment)
    (hcolor : Glsl.stateAfter (.inside .code) c.program.color.toList = .inside .code)
    (hunmarked : ∀ text ∈ c.program.globals ++ c.program.functions ++ c.program.bodies,
      ¬['\x7b', '\x7b'] <:+: text.toList)
    (hversion : settings.glslVersion.toList.all (fun c => c.isAlphanum || c == ' ') = true)
    (hnames : ∀ name ∈ (UniformTable.ofGraph catalog settings g).names,
      name ∉ Glsl.identifiers Program.bare.text ∧ name ∉ Glsl.identifiers settings.glslVersion) :
    c.uniforms.Pairwise (fun u v => u.name < v.name) ∧
    (∀ name, name ∈ c.uniforms.map (·.name) ↔
      name ∈ (UniformTable.ofGraph catalog settings g).names ∧
        name ∈ Glsl.identifiers c.program.text) ∧
    ∀ u ∈ c.uniforms, ∃ before after, c.program.text = before ++ "\n" ++ u.line ++ "\n" ++ after ∧
      Glsl.identifiers c.program.text
        = Glsl.identifiers before ++ ["uniform", "float", u.name] ++ Glsl.identifiers after ∧
      u.name ∈ Glsl.identifiers after := by
  obtain ⟨-, order, -, rfl⟩ := compile_eq_ok_iff.1 hc
  let table := UniformTable.ofGraph catalog settings g
  let p := (compileOrdered catalog settings g order).program
  have hsealed : p.Sealed := sealed_compileOrdered hversion (fun text htext =>
    ⟨Glsl.closedBy_newline_iff.2 (hclosed text htext), hunmarked text htext⟩) hcolor
  have hline : ∀ u ∈ table.used (p.sources.flatMap Glsl.identifiers),
      Glsl.identifiers u.line = ["uniform", "float", u.name] := by
    intro u hu
    obtain ⟨htype, hname⟩ := UniformTable.float_of_mem_all (UniformTable.mem_all_of_mem_used hu).1
    exact (Uniform.line_closed htype hname).1
  refine ⟨table.pairwise_used _, fun name => ?_, fun u hu => ?_⟩
  · refine UniformTable.mem_names_used.trans (and_congr_right fun hname => ?_)
    obtain ⟨hframe, hversion⟩ := hnames name hname
    constructor
    · exact fun hread => hsealed.mem_identifiers_text.2 (Or.inr (Or.inr (Or.inr hread)))
    · intro htext
      rcases hsealed.mem_identifiers_text.1 htext with h | h | h | hread
      · exact absurd h hframe
      · exact absurd h hversion
      · -- of the words of a line, two are in the frame and the third is read
        obtain ⟨line, hmem, hword⟩ := List.mem_flatMap.1 h
        obtain ⟨u, hu, rfl⟩ := List.mem_map.1 hmem
        rw [hline u hu] at hword
        simp only [List.mem_cons, List.not_mem_nil, or_false] at hword
        rcases hword with rfl | rfl | rfl
        · exact absurd Program.mem_identifiers_bare.1 hframe
        · exact absurd Program.mem_identifiers_bare.2 hframe
        · exact (UniformTable.mem_all_of_mem_used hu).2
      · exact hread
  · obtain ⟨front, back, hsplit⟩ := List.append_of_mem hu
    have hlines : p.uniforms = front.map Uniform.line ++ u.line :: back.map Uniform.line := by
      rw [← List.map_cons, ← List.map_append, ← hsplit]
      rfl
    obtain ⟨before, after, htext, hids, hread⟩ := hsealed.exists_split_at_line hlines
    rw [hline u hu] at hids
    exact ⟨before, after, htext, hids, hread (UniformTable.mem_all_of_mem_used hu).2⟩

/-- A type that reads one parameter and mentions another one in a comment. -/
def NodeType.paint : NodeType :=
  { (((bare "paint" "output").withOutput (.plain "c" .vec3)).withParam "g" (.float 0)).withParam
      "h" (.float 1) with mainCode := "$output.c = vec3($param.g); // $param.h" }

/-- The catalog of that type. -/
def Catalog.easel : Catalog := .ofList [.paint]

/-- A graph of one node of that type. -/
def Graph.sketch : Graph where
  id := "sketch"
  name := "sketch"
  version := formatVersion
  nodes := [.bare "a" "paint"]
  connections := []
  lanes := []

/-- The plan of the graph, with its table written out. -/
def Plan.sketch : Plan :=
  ⟨.sketch, .easel, {}, ["a"],
    ⟨[⟨"uaG", "a", "g", .float, 0⟩, ⟨"uaH", "a", "h", .float, 1⟩], []⟩, []⟩

theorem Plan.ofGraph_sketch : ofGraph .easel {} .sketch ["a"] = sketch := by
  have hnode : Graph.sketch.nodes.flatMap (UniformTable.ofNode .easel) =
      [⟨Symbol.uniform "a" "g", "a", "g", .float, 0⟩,
        ⟨Symbol.uniform "a" "h", "a", "h", .float, 1⟩] := rfl
  have hsymbols : Symbol.uniform "a" "g" = "uaG" ∧ Symbol.uniform "a" "h" = "uaH" := by
    decide +kernel
  have hparams : (UniformTable.ofGraph .easel {} .sketch).params = sketch.uniforms.params := by
    simp only [UniformTable.ofGraph, hnode, hsymbols, if_true]
    exact List.mergeSort_of_pairwise (by decide +kernel)
  have hvirtuals : (UniformTable.ofGraph .easel {} .sketch).virtuals = [] :=
    List.mergeSort_of_pairwise List.Pairwise.nil
  have htable : UniformTable.ofGraph .easel {} .sketch = sketch.uniforms :=
    congrArg₂ UniformTable.mk hparams hvirtuals
  rw [ofGraph, htable]
  rfl

/-- The body of the node. -/
def Graph.sketchBody : String :=
  "    // node: a (paint)\n    \x7b\n        node_a_c = vec3(uaG); // uaH\n    \x7d"

theorem Plan.sections_sketch : sketch.sections.value.globals = ["vec3 node_a_c = vec3(0.0);"] ∧
    sketch.sections.value.functions = [] ∧ sketch.sections.value.bodies = [Graph.sketchBody] ∧
    sketch.sections.value.color.expr = "node_a_c" := by
  decide +kernel

/-- The parameter that the code reads is listed, and the one in the comment is not. -/
theorem uniforms_read_sketch :
    let c := compileOrdered .easel {} .sketch ["a"]
    compile .easel {} .sketch = .ok c ∧
    (UniformTable.ofGraph .easel {} .sketch).names = ["uaG", "uaH"] ∧
    c.program.bodies = [Graph.sketchBody] ∧ "uaG" ∈ c.uniforms.map (·.name) ∧
    "uaH" ∉ Glsl.identifiers c.program.text ∧
    ∃ before after, c.program.text = before ++ "\n" ++ "uniform float uaG;" ++ "\n" ++ after ∧
      "uaG" ∈ Glsl.identifiers after := by
  intro c
  obtain ⟨hglobals, hfunctions, hbodies, hcolor⟩ := Plan.sections_sketch
  rw [← Plan.ofGraph_sketch] at hglobals hfunctions hbodies hcolor
  have hnames : (UniformTable.ofGraph .easel {} .sketch).names = ["uaG", "uaH"] := by
    have htable := congrArg Plan.uniforms Plan.ofGraph_sketch
    exact congrArg UniformTable.names htable
  have hprogram : c.program.globals ++ c.program.functions ++ c.program.bodies
      = ["vec3 node_a_c = vec3(0.0);", Graph.sketchBody] :=
    congrArg₂ _ (congrArg₂ _ hglobals hfunctions) hbodies
  have hclosed : ∀ text ∈ ["vec3 node_a_c = vec3(0.0);", Graph.sketchBody],
      Glsl.stateAfter (.inside .code) text.toList = .inside .code ∧
        ¬['\x7b', '\x7b'] <:+: text.toList := by
    decide +kernel
  have hfree : ∀ name ∈ ["uaG", "uaH"],
      name ∉ Glsl.identifiers Program.bare.text ∧ name ∉ Glsl.identifiers "300 es" := by
    rw [Program.sealed_bare.identifiers_text]
    decide +kernel
  have hread : "uaG" ∈ (Plan.ofGraph .easel {} .sketch ["a"]).sections.value.identifiers ∧
      "uaH" ∉ (Plan.ofGraph .easel {} .sketch ["a"]).sections.value.identifiers := by
    rw [Sections.identifiers, Sections.texts, hglobals, hfunctions, hbodies, hcolor]
    decide +kernel
  have hc : compile .easel {} .sketch = .ok c :=
    compile_eq_ok_iff.2 ⟨by decide, ["a"], by decide +kernel, rfl⟩
  obtain ⟨-, hlisted, hdeclared⟩ := uniforms_read .easel {} .sketch c hc
    (fun text htext => Or.inl (hclosed text (hprogram ▸ htext)).1)
    (by rw [show c.program.color = "node_a_c" from hcolor]; decide +kernel)
    (fun text htext => (hclosed text (hprogram ▸ htext)).2) (by decide)
    (fun name hname => hfree name (hnames ▸ hname))
  have hfirst : "uaG" ∈ c.uniforms.map (·.name) :=
    UniformTable.mem_names_used.2 ⟨hnames ▸ List.mem_cons_self, hread.1⟩
  refine ⟨hc, hnames, hbodies, hfirst, fun htext => ?_, ?_⟩
  · have hsecond : "uaH" ∈ c.uniforms.map (·.name) :=
      (hlisted "uaH").2 ⟨hnames ▸ List.mem_cons_of_mem _ List.mem_cons_self, htext⟩
    exact hread.2 (UniformTable.mem_names_used.1 hsecond).2
  · obtain ⟨u, hu, hname⟩ := List.mem_map.1 hfirst
    have htype := (UniformTable.float_of_mem_all (UniformTable.mem_all_of_mem_used hu).1).1
    have hline : u.line = "uniform float uaG;" := by
      rw [Uniform.line, htype, hname]
      rfl
    obtain ⟨before, after, htext, -, hbelow⟩ := hdeclared u hu
    rw [hline] at htext
    exact ⟨before, after, htext, hname ▸ hbelow⟩

end ShaderGraph
