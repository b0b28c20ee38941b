import ShaderGraph.Proofs.Assembly
import ShaderGraph.Proofs.Seams

/-!
# Identifiers of a program

Every mark of the frame stands between characters that end words. So the identifiers of a program
are those of the frame and those of its parts, if each part is closed by the character behind its
mark. The lines that declare the uniforms stand above everything that could read them.
-/

namespace ShaderGraph

namespace Program

variable {marks : Mark → String} {mark : Mark} {pieces : List (String ⊕ Mark)}

/-! ## Identifiers of a frame -/

/-- The identifiers of a piece of a frame. -/
def identifiersOf (marks : Mark → String) : String ⊕ Mark → List String
  | .inl text => Glsl.identifiers text
  | .inr mark => Glsl.identifiers (marks mark)

/-- Whether a text ends with a break in the code. -/
def endsBroken (text : List Char) : Bool :=
  match text.getLast? with
  | none => false
  | some c => Glsl.isBreak c && decide (Glsl.ClosedBy c text.dropLast)

theorem exists_of_endsBroken {text : List Char} (h : endsBroken text = true) :
    ∃ front c, Glsl.isBreak c = true ∧ Glsl.ClosedBy c front ∧ text = front ++ [c] := by
  rw [endsBroken] at h
  cases hlast : text.getLast? with
  | none => simp [hlast] at h
  | some c =>
    simp only [hlast, Bool.and_eq_true, decide_eq_true_eq] at h
    exact ⟨text.dropLast, c, h.1, h.2, (List.dropLast_append_getLast? c hlast).symm⟩

/-- Whether the marks of a frame stand between breaks, and the frame ends in the code. -/
def isSeamed : List (String ⊕ Mark) → Bool
  | [] => true
  | .inl text :: rest =>
    (if rest.isEmpty then
      decide (Glsl.stateAfter (.inside .code) text.toList = .inside .code)
    else endsBroken text.toList) && isSeamed rest
  | .inr _ :: rest => (opening rest).any Glsl.isBreak && isSeamed rest

/-- The marks of a frame, each with the character behind it. -/
def followers : List (String ⊕ Mark) → List (Mark × Char)
  | [] => []
  | .inl _ :: rest => followers rest
  | .inr mark :: rest => ((opening rest).map fun c => (mark, c)).toList ++ followers rest

/-- **A frame has the identifiers of its texts and of its parts**, if each part is closed by the
character behind it. -/
theorem identifiers_textOf (hpieces : isSeamed pieces = true)
    (hmarks : ∀ f ∈ followers pieces, Glsl.ClosedBy f.2 (marks f.1).toList) :
    Glsl.identifiers (textOf marks pieces) = pieces.flatMap (identifiersOf marks) ∧
      Glsl.stateAfter (.inside .code) (textOf marks pieces).toList = .inside .code := by
  induction pieces with
  | nil => exact ⟨rfl, rfl⟩
  | cons piece rest ih =>
    cases piece with
    | inl text =>
      rw [isSeamed, Bool.and_eq_true] at hpieces
      obtain ⟨htext, hrest⟩ := hpieces
      obtain ⟨hids, hstate⟩ := ih hrest hmarks
      split at htext
      · rename_i hnil
        obtain rfl := List.isEmpty_iff.1 hnil
        simpa [identifiersOf] using htext
      · obtain ⟨front, c, hc, hfront, hsplit⟩ := exists_of_endsBroken htext
        obtain ⟨hjoined, hstate'⟩ := Glsl.append_of_closing hc hfront hsplit
        rw [textOf_inl, hjoined, hstate', hids]
        exact ⟨rfl, hstate⟩
    | inr mark =>
      rw [isSeamed, Bool.and_eq_true, Option.any_eq_true] at hpieces
      obtain ⟨⟨c, hopening, hc⟩, hrest⟩ := hpieces
      rw [followers, hopening] at hmarks
      obtain ⟨hmark, hmarks⟩ := List.forall_mem_cons.1 hmarks
      obtain ⟨hids, hstate⟩ := ih hrest hmarks
      obtain ⟨hjoined, hstate'⟩ := Glsl.append_of_opening hc hmark (head?_textOf hopening marks)
      rw [textOf_inr, hjoined, hstate', hids]
      exact ⟨rfl, hstate⟩

/-! ## Identifiers of a program -/

/-- The frame above the lines of the uniforms. -/
def above : List (String ⊕ Mark) := frame.take 6 ++ [.inl ";"]

/-- The frame below the lines of the uniforms. -/
def below : List (String ⊕ Mark) := .inl "out vec4 fragColor;\n\n" :: frame.drop 9

theorem textOf_frame (marks : Mark → String) :
    textOf marks frame
      = textOf marks above ++ "\n" ++ marks .uniforms ++ "\n" ++ textOf marks below := by
  have habove : (";\n" : String) = ";" ++ "\n" := rfl
  have hbelow : ("\nout vec4 fragColor;\n\n" : String) = "\n" ++ "out vec4 fragColor;\n\n" := rfl
  simp only [frame, above, below, List.take, List.drop, List.cons_append, List.nil_append,
    textOf_inl, textOf_inr, textOf_nil, String.append_assoc, String.append_empty]
  rw [habove, hbelow]
  simp only [String.append_assoc]

/-- A program whose parts cannot run into each other: the lines, functions and bodies end outside
block comments and strings, the colour ends in the code, and no part but the colour could hold a
mark. -/
structure Sealed (p : Program) : Prop where
  version : p.version.toList.all (fun c => c.isAlphanum || c == ' ') = true
  closed : ∀ text ∈ p.uniforms ++ p.globals ++ p.functions ++ p.bodies,
    Glsl.ClosedBy '\n' text.toList
  unmarked : ∀ text ∈ p.uniforms ++ p.globals ++ p.functions ++ p.bodies,
    Text.Unmarked text.toList
  color : Glsl.stateAfter (.inside .code) p.color.toList = .inside .code

/-- The program without parts. -/
def bare : Program := ⟨"", [], [], [], [], ""⟩

theorem sealed_bare : bare.Sealed := ⟨rfl, by simp [bare], by simp [bare], rfl⟩

/-- In place of a mark it has nothing, or what all programs have. -/
theorem part_bare (p : Program) (m : Mark) : bare.part m = p.part m ∨ bare.part m = "" := by
  cases m with
  | time => exact Or.inl rfl
  | resolution => exact Or.inl rfl
  | _ => exact Or.inr (by simp [part, bare])

/-- The texts of a program below its uniforms. -/
def sources (p : Program) : List String := p.globals ++ p.functions ++ p.bodies ++ [p.color]

namespace Sealed

variable {p : Program} (h : p.Sealed)

include h

theorem closed_chunk {text : String} (hmark : mark ≠ .color) (htext : text ∈ p.chunks mark) :
    Glsl.ClosedBy '\n' text.toList := by
  cases mark with
  | version =>
    obtain rfl := List.mem_singleton.1 htext
    have hchars := List.all_eq_true.1 h.version
    have hplain : ∀ c ∈ p.version.toList, c ≠ '/' ∧ c ≠ '"' := by
      refine fun c hc => ⟨?_, ?_⟩ <;>
      · rintro rfl
        cases hchars _ hc
    exact Glsl.closedBy_of_code (by decide) (Glsl.cells_of_plain hplain).2
  | time =>
    obtain rfl := List.mem_singleton.1 htext
    decide +kernel
  | resolution =>
    obtain rfl := List.mem_singleton.1 htext
    decide +kernel
  | uniforms => exact h.closed text (by simp [show text ∈ p.uniforms from htext])
  | globals => exact h.closed text (by simp [show text ∈ p.globals from htext])
  | functions =>
    obtain ⟨function, hfunction, rfl⟩ := List.mem_map.1 (List.mem_filter.1 htext).1
    rw [Text.trimmed, String.toList_ofList]
    exact Glsl.closedBy_trim (h.closed function (by simp [hfunction]))
  | body => exact h.closed text (by simp [show text ∈ p.bodies from htext])
  | color => exact absurd rfl hmark

/-- The version holds no mark either. -/
theorem part_unmarked (hmark : mark ≠ .color) : Text.Unmarked (p.part mark).toList := by
  refine unmarked_part (List.forall_mem_cons.2 ⟨.of_not_mem fun hbrace => ?_, h.unmarked⟩) hmark
  cases List.all_eq_true.1 h.version _ hbrace

theorem part_closed (hmark : mark ≠ .color) : Glsl.ClosedBy '\n' (p.part mark).toList ∧
    Glsl.identifiers (p.part mark) = (p.chunks mark).flatMap Glsl.identifiers := by
  obtain ⟨sep, hsep, hpart⟩ := p.exists_part_eq mark
  rw [hpart]
  exact Glsl.intercalate_closed hsep fun text htext => h.closed_chunk hmark htext

/-- Every part is closed by what stands behind it in the frame. -/
theorem closed_followers :
    ∀ f ∈ followers above ++ followers below, Glsl.ClosedBy f.2 (p.part f.1).toList := by
  have hfollowers : followers above ++ followers below = [(.version, '\n'), (.time, ';'),
      (.resolution, ';'), (.globals, '\n'), (.functions, '\n'), (.resolution, '.'),
      (.resolution, '.'), (.body, '\n'), (.color, ',')] := by decide +kernel
  have hline : ∀ m, m ≠ .color → Glsl.ClosedBy '\n' (p.part m).toList :=
    fun m hm => (h.part_closed hm).1
  have hcolor : Glsl.ClosedBy ',' (p.part .color).toList :=
    Glsl.closedBy_of_code (by decide) h.color
  have htime : Glsl.ClosedBy ';' Symbol.time.toList := by decide +kernel
  have hresolution : Glsl.ClosedBy ';' Symbol.resolution.toList ∧
      Glsl.ClosedBy '.' Symbol.resolution.toList := by decide +kernel
  rw [hfollowers]
  simp only [List.forall_mem_cons]
  exact ⟨hline _ (by decide), htime, hresolution.1, hline _ (by decide), hline _ (by decide),
    hresolution.2, hresolution.2, hline _ (by decide), hcolor, by simp⟩

/-- What is above the uniforms has the identifiers of its pieces and ends in the code. -/
theorem identifiers_above :
    Glsl.identifiers (textOf p.part above) = above.flatMap (identifiersOf p.part) ∧
      Glsl.stateAfter (.inside .code) (textOf p.part above).toList = .inside .code :=
  identifiers_textOf (by decide +kernel)
    fun f hf => h.closed_followers f (List.mem_append_left _ hf)

/-- And so does what is below them. -/
theorem identifiers_below :
    Glsl.identifiers (textOf p.part below) = below.flatMap (identifiersOf p.part) ∧
      Glsl.stateAfter (.inside .code) (textOf p.part below).toList = .inside .code :=
  identifiers_textOf (by decide +kernel)
    fun f hf => h.closed_followers f (List.mem_append_right _ hf)

/-- A program is lines: what is above the uniforms, those of the uniforms, what is below them. -/
theorem text_eq_intercalate : p.text
    = "\n".intercalate [textOf p.part above, p.part .uniforms, textOf p.part below] := by
  rw [text_eq fun _ hm => h.part_unmarked hm, textOf_frame]
  simp [String.append_assoc]

theorem identifiers_text : Glsl.identifiers p.text = above.flatMap (identifiersOf p.part)
    ++ p.uniforms.flatMap Glsl.identifiers ++ below.flatMap (identifiersOf p.part) := by
  obtain ⟨habove, hstate⟩ := h.identifiers_above
  obtain ⟨hbelow, hstate'⟩ := h.identifiers_below
  obtain ⟨hclosed, huniforms⟩ := @part_closed .uniforms p h (by decide)
  have hlines : ∀ text ∈ [textOf p.part above, p.part .uniforms, textOf p.part below],
      Glsl.ClosedBy '\n' text.toList := by
    have hbreak : Glsl.isBreak '\n' = true := by decide
    simpa using ⟨Glsl.closedBy_of_code hbreak hstate, hclosed, Glsl.closedBy_of_code hbreak hstate'⟩
  rw [h.text_eq_intercalate, (Glsl.intercalate_closed (Or.inl rfl) hlines).2]
  simp [habove, hbelow, huniforms, chunks]

/-- A function keeps its identifiers when it is trimmed, and has none if nothing is left of it. -/
theorem identifiers_functions :
    Glsl.identifiers (p.part .functions) = p.functions.flatMap Glsl.identifiers := by
  have htrimmed (function : String) :
      Glsl.identifiers (Text.trimmed function) = Glsl.identifiers function := by
    rw [Glsl.identifiers_eq, Glsl.identifiers_eq, Text.trimmed, String.toList_ofList,
      Glsl.names_trim]
  rw [(@part_closed .functions p h (by decide)).2, chunks]
  generalize p.functions = functions
  induction functions with
  | nil => rfl
  | cons function rest ih =>
    rw [List.map_cons, List.filter_cons, List.flatMap_cons, ← htrimmed function]
    split
    · rw [List.flatMap_cons, ih]
    · rename_i hblank
      have hempty : Text.trimmed function = "" := by simpa using hblank
      rw [ih, hempty]
      rfl

/-- The texts below the uniforms are in four parts. -/
theorem mem_identifiers_sources {x : String} : x ∈ p.sources.flatMap Glsl.identifiers ↔
    ∃ m ∈ [Mark.globals, .functions, .body, .color], x ∈ Glsl.identifiers (p.part m) := by
  have hglobals := (@part_closed .globals p h (by decide)).2
  have hbody := (@part_closed .body p h (by decide)).2
  have hcolor : Glsl.identifiers (p.part .color) = [p.color].flatMap Glsl.identifiers :=
    (List.append_nil _).symm
  simp only [List.mem_cons, List.not_mem_nil, or_false, exists_eq_or_imp, exists_eq_left, hglobals,
    hbody, hcolor, h.identifiers_functions, sources, List.flatMap_append, List.mem_append, chunks,
    or_assoc]

/-- The frame has the identifiers that it has without parts, and those of the parts. -/
theorem mem_identifiersOf {x : String} :
    x ∈ (above ++ below).flatMap (identifiersOf p.part) ↔
      x ∈ (above ++ below).flatMap (identifiersOf bare.part) ∨ x ∈ Glsl.identifiers p.version ∨
        x ∈ p.sources.flatMap Glsl.identifiers := by
  have hmarks : ∀ m : Mark, .inr m ∈ above ++ below ↔ m ≠ .uniforms := by
    intro m
    cases m <;> simp [above, below, frame]
  rw [h.mem_identifiers_sources, List.mem_flatMap, List.mem_flatMap]
  constructor
  · rintro ⟨piece, hpiece, hx⟩
    cases piece with
    | inl text => exact Or.inl ⟨_, hpiece, hx⟩
    | inr m =>
      cases m with
      | version => exact Or.inr (Or.inl hx)
      | time => exact Or.inl ⟨_, hpiece, hx⟩
      | resolution => exact Or.inl ⟨_, hpiece, hx⟩
      | uniforms => exact absurd rfl ((hmarks _).1 hpiece)
      | globals => exact Or.inr (Or.inr ⟨.globals, by decide, hx⟩)
      | functions => exact Or.inr (Or.inr ⟨.functions, by decide, hx⟩)
      | body => exact Or.inr (Or.inr ⟨.body, by decide, hx⟩)
      | color => exact Or.inr (Or.inr ⟨.color, by decide, hx⟩)
  · rintro (⟨piece, hpiece, hx⟩ | hx | ⟨m, hm, hx⟩)
    · cases piece with
      | inl text => exact ⟨_, hpiece, hx⟩
      | inr m =>
        rcases part_bare p m with hsame | hempty
        · rw [identifiersOf, hsame] at hx
          exact ⟨_, hpiece, hx⟩
        · rw [identifiersOf, hempty] at hx
          cases hx
    · exact ⟨_, (hmarks .version).2 (by decide), hx⟩
    · refine ⟨_, (hmarks m).2 ?_, hx⟩
      rintro rfl
      revert hm
      decide

/-- **Where the identifiers of a program come from**: the program without parts, the version, the
lines of the uniforms, and the texts below them. -/
theorem mem_identifiers_text {x : String} : x ∈ Glsl.identifiers p.text ↔
    x ∈ Glsl.identifiers bare.text ∨ x ∈ Glsl.identifiers p.version ∨
      x ∈ p.uniforms.flatMap Glsl.identifiers ∨ x ∈ p.sources.flatMap Glsl.identifiers := by
  have hpieces : ∀ {q : Program}, q.Sealed → (x ∈ Glsl.identifiers q.text ↔
      x ∈ (above ++ below).flatMap (identifiersOf q.part) ∨
        x ∈ q.uniforms.flatMap Glsl.identifiers) := by
    intro q hq
    rw [hq.identifiers_text, List.flatMap_append, List.mem_append, List.mem_append, List.mem_append]
    exact or_right_comm
  have hbare : x ∉ bare.uniforms.flatMap Glsl.identifiers := List.not_mem_nil
  rw [hpieces h, hpieces sealed_bare, h.mem_identifiersOf, or_iff_left hbare, or_assoc, or_assoc,
    or_comm (a := x ∈ p.sources.flatMap Glsl.identifiers)]

/-- **A line of a uniform stands by itself**, above the texts that the program is made from. -/
theorem exists_split_at_line {front back : List String} {line : String}
    (hline : p.uniforms = front ++ line :: back) :
    ∃ before after, p.text = before ++ "\n" ++ line ++ "\n" ++ after ∧
      Glsl.identifiers p.text
        = Glsl.identifiers before ++ Glsl.identifiers line ++ Glsl.identifiers after ∧
      p.sources.flatMap Glsl.identifiers ⊆ Glsl.identifiers after := by
  obtain ⟨-, habove⟩ := h.identifiers_above
  obtain ⟨hids, hbelow⟩ := h.identifiers_below
  let head := textOf p.part above :: front
  let tail := back ++ [textOf p.part below]
  have hhead : head ≠ [] := List.cons_ne_nil _ _
  have htail : tail ≠ [] := by simp [tail]
  have hlines : head ++ line :: tail
      = textOf p.part above :: (p.uniforms ++ [textOf p.part below]) := by
    simp [head, tail, hline]
  have htext : p.text = "\n".intercalate (head ++ line :: tail) := by
    have huniforms : p.uniforms ≠ [] := by simp [hline]
    rw [hlines, String.intercalate_cons_of_ne_nil (by simp),
      String.intercalate_append_of_ne_nil huniforms (by simp), h.text_eq_intercalate]
    simp only [String.intercalate_cons_cons, String.intercalate_singleton, String.append_assoc]
    rfl
  have hclosed : ∀ text ∈ head ++ line :: tail, Glsl.ClosedBy '\n' text.toList := by
    rw [hlines]
    refine List.forall_mem_cons.2 ⟨Glsl.closedBy_of_code (by decide) habove,
      List.forall_mem_append.2 ⟨fun text hmem => h.closed text (by simp [hmem]), ?_⟩⟩
    simpa using Glsl.closedBy_of_code (by decide) hbelow
  obtain ⟨hsplit, hsplitIds⟩ := Glsl.intercalate_split hhead htail hclosed
  refine ⟨"\n".intercalate head, "\n".intercalate tail, htext.trans hsplit,
    (congrArg _ htext).trans hsplitIds, fun x hx => ?_⟩
  -- the texts are in parts whose marks are below
  obtain ⟨m, hm, hx⟩ := h.mem_identifiers_sources.1 hx
  have hpiece : .inr m ∈ below := by
    simp only [List.mem_cons, List.not_mem_nil, or_false] at hm
    rcases hm with rfl | rfl | rfl | rfl <;> simp [below, frame]
  have hcells := (List.forall_mem_cons.1 (List.forall_mem_append.1 hclosed).2).2
  rw [(Glsl.intercalate_closed (Or.inl rfl) hcells).2, List.flatMap_append,
    List.flatMap_singleton, hids]
  exact List.mem_append_right _ (List.mem_flatMap.2 ⟨_, hpiece, hx⟩)

end Sealed

/-- The program without parts declares uniforms of its own. -/
theorem mem_identifiers_bare :
    "uniform" ∈ Glsl.identifiers bare.text ∧ "float" ∈ Glsl.identifiers bare.text := by
  have hpiece : .inl "\nprecision highp float;\n\nuniform float " ∈ above := by simp [above, frame]
  have hwords : ["uniform", "float"] ⊆
      Glsl.identifiers "\nprecision highp float;\n\nuniform float " := by decide +kernel
  rw [sealed_bare.identifiers_text, List.append_assoc]
  exact ⟨List.mem_append_left _ (List.mem_flatMap.2 ⟨_, hpiece, hwords (by simp)⟩),
    List.mem_append_left _ (List.mem_flatMap.2 ⟨_, hpiece, hwords (by simp)⟩)⟩

end Program

end ShaderGraph
