import ShaderGraph.Proofs.Functions
import ShaderGraph.Proofs.Seams

/-!
# Functions in a row

In a program the functions of the library stand one below the other, with blank lines between them.
They may come from many texts, and where a function stood in its text the machine that tells code
from comments and strings had been through all that was before it. None of this matters: a function
starts and ends in the code, so each is read by itself wherever it stands, and what follows it
starts anew. Hence a row of functions is scanned as these functions, with nothing left over.
-/

namespace ShaderGraph.Glsl

/-! ## Behind a function -/

/-- Code leads to code. -/
theorem snd_step_of_isCode {state : State} {c : Char} {ahead : Option Char}
    (h : (state.step c ahead).1 = true) : (state.step c ahead).2 = .inside .code := by
  rcases state with ⟨_ | _ | _ | _⟩ | ⟨_⟩ <;> simp only [State.step] at h ⊢ <;> grind

/-- A text whose last character is code ends in the code. -/
theorem stateAfter_of_last {text : List Char} {inner : List Cell} {c : Char}
    (h : cells text = inner ++ [⟨c, true⟩]) : stateAfter (.inside .code) text = .inside .code := by
  have htext : text = inner.map Cell.char ++ [c] := by
    rw [← map_char_cellsFrom (.inside .code) text, ← cells, h, List.map_append]
    rfl
  rw [htext, cells, cellsFrom_append] at h
  have hlast := (List.append_inj h (by rw [length_cellsBefore, List.length_map])).2
  rw [htext, stateAfter_append]
  exact snd_step_of_isCode (congrArg Cell.isCode (List.cons.inj hlast).1)

theorem stateAfter_function {text : String} {f : Function} (h : f ∈ functionsOf text) :
    stateAfter (.inside .code) f.text.toList = .inside .code := by
  obtain ⟨l, hl, -, hread, -⟩ := exists_layout_of_mem_functionsOf h
  obtain ⟨inner, hlast⟩ := Layout.exists_last_of_valid hl
  have hcells : cells f.text.toList = inner.flatMap Lexeme.cells ++ [⟨'\x7d', true⟩] := by
    rw [← Lexeme.flatMap_cells_ofCells (cells f.text.toList), ← lexemes, hread, hlast,
      List.flatMap_append]
    rfl
  exact stateAfter_of_last hcells

/-- The line feed between two functions. -/
def lineFeed : Lexeme := .other ⟨'\n', true⟩

theorem lexemes_append_lineFeed {text : List Char} (h : ClosedBy '\n' text) (rest : List Char) :
    lexemes (text ++ '\n' :: rest) = lexemes text ++ lineFeed :: lexemes rest :=
  lexemes_append_cons (by decide) h rest

theorem parts_lineFeed (text : List Char) :
    parts ('\n' :: text) = .loose lineFeed :: parts text := by
  rw [parts, ← List.nil_append ('\n' :: text), lexemes_append_lineFeed (closedBy_nil (by decide))]
  exact partsFrom_loose fun _ => rfl

/-- What follows a function on the next line is scanned by itself. -/
theorem parts_function_append {source : String} {f : Function} (h : f ∈ functionsOf source)
    (text : List Char) :
    parts (f.text.toList ++ '\n' :: text) = .function f :: parts ('\n' :: text) := by
  obtain ⟨l, hl, rfl, hread, -⟩ := exists_layout_of_mem_functionsOf h
  have hclosed : ClosedBy '\n' l.function.text.toList :=
    closedBy_of_code (by decide) (stateAfter_function h)
  rw [parts, lexemes_append_lineFeed hclosed, hread,
    partsFrom_function (Layout.function?_of_valid hl _), parts, ← List.nil_append ('\n' :: text),
    lexemes_append_lineFeed (closedBy_nil (by decide))]
  rfl

theorem trim_lineFeed (text : List Char) : Text.trim ('\n' :: text) = Text.trim text := by
  have hblank : Text.isBlank '\n' = true := by decide
  rw [Text.trim, Text.trimStart, List.dropWhile_cons_of_pos hblank]
  rfl

/-- Line feeds in front of a text are trimmed. -/
theorem map_trim_gaps_lineFeed (parts : List Part) :
    (gaps (.loose lineFeed :: parts)).map Text.trim = (gaps parts).map Text.trim := by
  obtain ⟨gap, more, hgaps⟩ := List.exists_cons_of_ne_nil (gaps_ne_nil parts)
  rw [gaps, hgaps]
  exact congrArg (· :: more.map Text.trim) (trim_lineFeed gap)

/-! ## Functions in a row -/

/-- Function texts with a blank line between any two. -/
def joined (functions : List Function) : String := "\n\n".intercalate (functions.map (·.text))

theorem parts_joined {functions : List Function}
    (h : ∀ f ∈ functions, ∃ source, f ∈ functionsOf source) :
    (parts (joined functions).toList).filterMap Part.function? = functions ∧
      ∀ gap ∈ (gaps (parts (joined functions).toList)).map Text.trim, gap = [] := by
  induction functions with
  | nil =>
    have hparts : parts (joined []).toList = [] := by
      simp [joined, parts, lexemes, cells, cellsFrom, Lexeme.ofCells, partsFrom]
    rw [hparts]
    exact ⟨rfl, by decide⟩
  | cons f rest ih =>
    obtain ⟨⟨source, hf⟩, hrest⟩ := List.forall_mem_cons.1 h
    rcases rest with _ | ⟨g, rest⟩
    · have hparts : parts (joined [f]).toList = [.function f] := by
        simpa [joined] using parts_text hf
      rw [hparts]
      exact ⟨rfl, by simp [gaps, Text.trim, Text.trimStart]⟩
    · obtain ⟨hfunctions, hgaps⟩ := ih hrest
      have hjoined : (joined (f :: g :: rest)).toList
          = f.text.toList ++ '\n' :: '\n' :: (joined (g :: rest)).toList := by
        simp [joined]
      have hparts : parts (joined (f :: g :: rest)).toList = .function f :: .loose lineFeed
          :: .loose lineFeed :: parts (joined (g :: rest)).toList := by
        rw [hjoined, parts_function_append hf, parts_lineFeed, parts_lineFeed]
      rw [hparts]
      constructor
      · exact congrArg (f :: ·) hfunctions
      · rw [gaps, List.map_cons, map_trim_gaps_lineFeed, map_trim_gaps_lineFeed]
        exact List.forall_mem_cons.2 ⟨rfl, hgaps⟩

/-- **Functions in a row are scanned as they stand there.** Whatever texts they come from, functions
joined by blank lines are found again, in order, with their return types, names, parameter types and
texts, and there is nothing else. -/
theorem scan_joined (functions : List Function)
    (h : ∀ f ∈ functions, ∃ source, f ∈ functionsOf source) :
    (scan (joined functions)).functions.map (·.function) = functions ∧
      (scan (joined functions)).preamble = "" := by
  obtain ⟨hfunctions, hgaps⟩ := parts_joined h
  refine ⟨(functionsOf_eq _).trans hfunctions, ?_⟩
  have hpieces : (((gaps (parts (joined functions).toList)).map Text.trim).filter
      fun piece => !piece.isEmpty) = [] := by
    refine List.filter_eq_nil_iff.2 fun gap hgap => ?_
    simp [hgaps gap hgap]
  simp only [scan, hpieces]
  rfl

/-- The one function comes after a comment and has a comment in it, the other stands before a string
that is never closed. -/
theorem scan_joined_pair :
    let a : Function := ⟨"int", "a", [], "int a()\x7b/*\x7d*/\x7d"⟩
    let b : Function := ⟨"vec2", "b", ["float"], "vec2 b(in float y)\x7b\x7d"⟩
    a ∈ functionsOf "//\x7d\nint a()\x7b/*\x7d*/\x7d" ∧
    b ∈ functionsOf ";vec2 b(in float y)\x7b\x7d\"" ∧
    let source := scan "int a()\x7b/*\x7d*/\x7d\n\nvec2 b(in float y)\x7b\x7d"
    source.functions.map (·.function) = [a, b] ∧ source.preamble = "" := by
  intro a b
  have ha : a ∈ functionsOf "//\x7d\nint a()\x7b/*\x7d*/\x7d" := by decide +kernel
  have hb : b ∈ functionsOf ";vec2 b(in float y)\x7b\x7d\"" := by decide +kernel
  have hjoined := scan_joined [a, b]
    (List.forall_mem_cons.2 ⟨⟨_, ha⟩, List.forall_mem_cons.2 ⟨⟨_, hb⟩, by simp⟩⟩)
  exact ⟨ha, hb, hjoined⟩

end ShaderGraph.Glsl
