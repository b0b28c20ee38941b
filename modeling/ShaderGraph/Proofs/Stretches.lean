import ShaderGraph.Glsl.Lexis
import Mathlib.Data.List.Chain

/-!
# Stretches of code

A part of a text is read as the whole text reads it if it starts in the code and ends with a
character that does not look ahead (`cells_stretch`). The machine looks one character ahead, so what
a text reads as depends on the first character behind it; `cellsBefore` carries that character.

Lexemes are cells put together, and nothing is lost: the cells can be taken out again, and putting
them together once more gives the same lexemes. So the lexemes of a stretch are those that stand
there in the whole text (`lexemes_stretch`).
-/

namespace ShaderGraph.Glsl

/-! ## Reading up to a seam -/

/-- The cells of a text that is followed by more, given the first character of that. -/
def cellsBefore (ahead : Option Char) (state : State) : List Char → List Cell
  | [] => []
  | c :: rest =>
    let moved := state.step c (rest.head?.or ahead)
    ⟨c, moved.1⟩ :: cellsBefore ahead moved.2 rest

/-- The state behind a text that is followed by more, given the first character of that. -/
def stateBefore (ahead : Option Char) (state : State) : List Char → State
  | [] => state
  | c :: rest => stateBefore ahead (state.step c (rest.head?.or ahead)).2 rest

/-- A text is read up to a seam, and on from the state there. -/
theorem cellsFrom_append (state : State) (x y : List Char) :
    cellsFrom state (x ++ y)
      = cellsBefore y.head? state x ++ cellsFrom (stateBefore y.head? state x) y := by
  induction x generalizing state with
  | nil => rfl
  | cons c rest ih =>
    rw [List.cons_append, cellsFrom, List.head?_append, ih]
    rfl

@[simp] theorem map_char_cellsFrom (state : State) (text : List Char) :
    (cellsFrom state text).map Cell.char = text := by
  induction text generalizing state with
  | nil => rfl
  | cons c rest ih => rw [cellsFrom, List.map_cons, ih]

@[simp] theorem map_char_cellsBefore (ahead : Option Char) (state : State) (text : List Char) :
    (cellsBefore ahead state text).map Cell.char = text := by
  induction text generalizing state with
  | nil => rfl
  | cons c rest ih => rw [cellsBefore, List.map_cons, ih]

theorem length_cellsBefore (ahead : Option Char) (state : State) (text : List Char) :
    (cellsBefore ahead state text).length = text.length := by
  rw [← List.length_map Cell.char, map_char_cellsBefore]

/-- Whether the machine passes a character without a look at the next one. -/
def isSteady (c : Char) : Bool := c != '/' && c != '*' && c != '\\'

theorem step_eq_of_isSteady {c : Char} (h : isSteady c = true) (state : State)
    (ahead ahead' : Option Char) : state.step c ahead = state.step c ahead' := by
  simp only [isSteady, Bool.and_eq_true, bne_iff_ne] at h
  obtain ⟨⟨hslash, hstar⟩, hback⟩ := h
  rcases state with ⟨zone⟩ | ⟨zone⟩
  · cases zone <;> simp [State.step, hslash, hstar, hback]
  · rfl

/-- Behind a steady character it does not matter what follows. -/
theorem cellsBefore_eq_of_isSteady {c : Char} (h : isSteady c = true) (ahead : Option Char)
    (state : State) (text : List Char) :
    cellsBefore ahead state (text ++ [c]) = cellsFrom state (text ++ [c]) := by
  induction text generalizing state with
  | nil =>
    simp only [List.nil_append, cellsBefore, cellsFrom]
    rw [step_eq_of_isSteady h state _ none]
    rfl
  | cons d rest ih =>
    -- something follows `d` on both sides, and it is the same
    have hhead : (rest ++ [c]).head?.or ahead = (rest ++ [c]).head? := by
      cases rest <;> rfl
    simp only [List.cons_append, cellsBefore, cellsFrom]
    rw [hhead, ih]

/-- Only from inside the code can a character be code, a line feed apart. -/
theorem eq_code_of_step {state : State} {c : Char} {ahead : Option Char}
    (h : (state.step c ahead).1 = true) (hc : c ≠ '\n') : state = .inside .code := by
  rcases state with ⟨zone⟩ | ⟨zone⟩
  · cases zone with
    | code => rfl
    | string =>
      simp only [State.step] at h
      split at h
      · cases h
      · split at h <;> cases h
    | lineComment =>
      rw [State.step, if_neg hc] at h
      cases h
    | blockComment =>
      simp only [State.step] at h
      split at h <;> cases h
  · cases h

/-- **A stretch of a text reads by itself as it reads in place**, if it starts with code that is no
line feed and ends with a steady character. -/
theorem cells_stretch {text : List Char} {before stretch after : List Cell}
    (h : cells text = before ++ (stretch ++ after)) {first : Cell}
    (hfirst : stretch.head? = some first) (hcode : first.isCode = true)
    (hline : first.char ≠ '\n') {inner : List Cell} {last : Cell}
    (hlast : stretch = inner ++ [last]) (hsteady : isSteady last.char = true) :
    cells (stretch.map Cell.char) = stretch := by
  have htext : text = before.map Cell.char ++ (stretch.map Cell.char ++ after.map Cell.char) := by
    rw [← map_char_cellsFrom (.inside .code) text, ← cells, h, List.map_append, List.map_append]
  rw [cells, htext, cellsFrom_append] at h
  generalize stateBefore (stretch.map Cell.char ++ after.map Cell.char).head? (.inside .code)
    (before.map Cell.char) = state at h
  obtain ⟨-, hrest⟩ := List.append_inj h (by rw [length_cellsBefore, List.length_map])
  -- the first cell is code, so the machine is inside the code where the stretch starts
  have hstate : state = .inside .code := by
    obtain ⟨tail, rfl⟩ := List.head?_eq_some_iff.1 hfirst
    rw [List.map_cons, List.cons_append, cellsFrom] at hrest
    have hcell := (List.cons.inj hrest).1
    have hstep : (state.step first.char (tail.map Cell.char ++ after.map Cell.char).head?).1
        = first.isCode := congrArg Cell.isCode hcell
    exact eq_code_of_step (hstep.trans hcode) hline
  rw [cellsFrom_append, hstate] at hrest
  obtain ⟨hstretch, -⟩ := List.append_inj hrest (by rw [length_cellsBefore, List.length_map])
  -- the last character is steady, so what follows the stretch made no difference
  rw [← hstretch, map_char_cellsBefore, cells, hlast, List.map_append]
  exact (cellsBefore_eq_of_isSteady hsteady _ _ _).symm

/-! ## Cells and lexemes -/

namespace Lexeme

/-- The cells that a lexeme was put together from. -/
def cells : Lexeme → List Cell
  | .word chars => chars.map (⟨·, true⟩)
  | .other cell => [cell]

@[simp] theorem map_char_cells (lexeme : Lexeme) : lexeme.cells.map Cell.char = lexeme.chars := by
  cases lexeme with
  | word chars =>
    rw [cells, List.map_map]
    exact List.map_id chars
  | other cell => rfl

/-- A lexeme as it comes out of cells: a word has characters, all of them word characters, and no
other lexeme is such a character of the code. -/
def Proper : Lexeme → Prop
  | .word chars => chars ≠ [] ∧ ∀ c ∈ chars, Text.isWordChar c = true
  | .other cell => (cell.isCode && Text.isWordChar cell.char) = false

/-- Not two words, which would be one. -/
def Parted : Lexeme → Lexeme → Prop
  | .word _, .word _ => False
  | _, _ => True

/-- Lexemes as they come out of cells: each is proper, and no two words touch. -/
structure WellFormed (lexemes : List Lexeme) : Prop where
  proper : ∀ lexeme ∈ lexemes, lexeme.Proper
  parted : lexemes.IsChain Parted

theorem WellFormed.nil : WellFormed [] := ⟨by simp, List.isChain_nil⟩

theorem WellFormed.of_infix {part lexemes : List Lexeme} (h : WellFormed lexemes)
    (hpart : part <:+: lexemes) : WellFormed part :=
  ⟨fun lexeme hl => h.proper lexeme (hpart.subset hl), h.parted.infix hpart⟩

/-- A word character of the code goes to the front of a word, or starts one. -/
theorem WellFormed.consWord {c : Char} {lexemes : List Lexeme} (hc : Text.isWordChar c = true)
    (h : WellFormed lexemes) : WellFormed (consWord c lexemes) := by
  have hsingle : (Lexeme.word [c]).Proper := ⟨by simp, by simpa using hc⟩
  rcases lexemes with _ | ⟨⟨chars⟩ | ⟨cell⟩, rest⟩
  · exact ⟨by simpa [Lexeme.consWord] using hsingle, List.isChain_singleton _⟩
  · have hword : (Lexeme.word chars).Proper := h.proper _ List.mem_cons_self
    have hlonger : (Lexeme.word (c :: chars)).Proper :=
      ⟨by simp, List.forall_mem_cons.2 ⟨hc, hword.2⟩⟩
    refine ⟨List.forall_mem_cons.2 ⟨hlonger, (List.forall_mem_cons.1 h.proper).2⟩, ?_⟩
    -- what may follow a word is the same for a longer one
    rcases rest with _ | ⟨next, rest⟩
    · exact List.isChain_singleton _
    · obtain ⟨hnext, hrest⟩ := List.isChain_cons_cons.1 h.parted
      refine List.isChain_cons_cons.2 ⟨?_, hrest⟩
      cases next with
      | word _ => exact hnext
      | other _ => trivial
  · exact ⟨List.forall_mem_cons.2 ⟨hsingle, h.proper⟩,
      List.isChain_cons_cons.2 ⟨trivial, h.parted⟩⟩

/-- A cell that belongs to no word stands by itself. -/
theorem WellFormed.consOther {cell : Cell} {lexemes : List Lexeme}
    (hcell : (Lexeme.other cell).Proper) (h : WellFormed lexemes) :
    WellFormed (.other cell :: lexemes) := by
  refine ⟨List.forall_mem_cons.2 ⟨hcell, h.proper⟩, ?_⟩
  rcases lexemes with _ | ⟨next, rest⟩
  · exact List.isChain_singleton _
  · exact List.isChain_cons_cons.2 ⟨trivial, h.parted⟩

/-- Lexemes come out of cells well formed. -/
theorem wellFormed_ofCells (cells : List Cell) : WellFormed (ofCells cells) := by
  induction cells with
  | nil => exact .nil
  | cons cell rest ih =>
    rw [ofCells]
    split
    · rename_i hword
      exact .consWord (Bool.and_eq_true_iff.1 hword).2 ih
    · rename_i hother
      exact .consOther (by simpa [Proper] using hother) ih

theorem flatMap_cells_consWord (c : Char) (lexemes : List Lexeme) :
    (consWord c lexemes).flatMap cells = ⟨c, true⟩ :: lexemes.flatMap cells := by
  rcases lexemes with _ | ⟨⟨chars⟩ | ⟨cell⟩, rest⟩ <;> rfl

/-- The cells of lexemes are those they came from. -/
@[simp] theorem flatMap_cells_ofCells (cells : List Cell) :
    (ofCells cells).flatMap Lexeme.cells = cells := by
  induction cells with
  | nil => rfl
  | cons cell rest ih =>
    rw [ofCells]
    split
    · rename_i hword
      rw [flatMap_cells_consWord, ih, ← (Bool.and_eq_true_iff.1 hword).1]
    · rw [List.flatMap_cons, ih]
      rfl

/-- The characters of a word go together, in front of what is no word. -/
theorem ofCells_word_append {chars : List Char} (hchars : chars ≠ [])
    (hword : ∀ c ∈ chars, Text.isWordChar c = true) {rest : List Cell} {lexemes : List Lexeme}
    (hrest : ofCells rest = lexemes) (hparted : ∀ next ∈ lexemes.head?, Parted (.word chars) next) :
    ofCells (chars.map (⟨·, true⟩) ++ rest) = .word chars :: lexemes := by
  induction chars with
  | nil => exact absurd rfl hchars
  | cons c tail ih =>
    have hc : Text.isWordChar c = true := hword c List.mem_cons_self
    rw [List.map_cons, List.cons_append, ofCells, if_pos (by simp [hc])]
    rcases tail with _ | ⟨d, tail⟩
    · rw [List.map_nil, List.nil_append, hrest]
      rcases lexemes with _ | ⟨⟨other⟩ | ⟨cell⟩, more⟩
      · rfl
      · exact (hparted _ rfl).elim
      · rfl
    · rw [ih (by simp) fun x hx => hword x (List.mem_cons_of_mem _ hx)]
      · rfl
      · intro next hnext
        cases next with
        | word _ => exact hparted _ hnext
        | other _ => trivial

/-- **Lexemes can be put together again from their cells.** -/
theorem ofCells_flatMap_cells {lexemes : List Lexeme} (h : WellFormed lexemes) :
    ofCells (lexemes.flatMap cells) = lexemes := by
  induction lexemes with
  | nil => rfl
  | cons lexeme rest ih =>
    have hproper : lexeme.Proper := h.proper lexeme List.mem_cons_self
    have hrest : ofCells (rest.flatMap cells) = rest :=
      ih (h.of_infix (List.suffix_cons lexeme rest).isInfix)
    rw [List.flatMap_cons]
    cases lexeme with
    | word chars =>
      refine ofCells_word_append hproper.1 hproper.2 hrest fun next hnext => ?_
      obtain ⟨tail, rfl⟩ := List.head?_eq_some_iff.1 hnext
      exact (List.isChain_cons_cons.1 h.parted).1
    | other cell =>
      rw [cells, List.singleton_append, ofCells, if_neg (by simpa [Proper] using hproper), hrest]

end Lexeme

/-- The characters of lexemes are those of their cells. -/
theorem map_char_flatMap_cells (lexemes : List Lexeme) :
    (lexemes.flatMap Lexeme.cells).map Cell.char = textOf lexemes := by
  rw [List.map_flatMap, textOf]
  simp

/-- **The lexemes of a stretch of text are those that stand there in the whole text**, if the
stretch starts with a word and ends with a mark of the code that is a steady character. -/
theorem lexemes_stretch {text : List Char} {before stretch after : List Lexeme}
    (h : lexemes text = before ++ (stretch ++ after)) {chars : List Char} {tail : List Lexeme}
    (hword : stretch = .word chars :: tail) {inner : List Lexeme} {mark : Cell}
    (hmark : stretch = inner ++ [.other mark]) (hsteady : isSteady mark.char = true) :
    lexemes (textOf stretch) = stretch := by
  have hwhole : Lexeme.WellFormed (lexemes text) := Lexeme.wellFormed_ofCells _
  have hpart : Lexeme.WellFormed stretch :=
    hwhole.of_infix ⟨before, after, by rw [h, List.append_assoc]⟩
  have hcells : cells text = before.flatMap Lexeme.cells
      ++ (stretch.flatMap Lexeme.cells ++ after.flatMap Lexeme.cells) := by
    rw [← Lexeme.flatMap_cells_ofCells (cells text), ← lexemes, h, List.flatMap_append,
      List.flatMap_append]
  obtain ⟨hchars, hwordChars⟩ : (Lexeme.word chars).Proper :=
    hpart.proper _ (hword ▸ List.mem_cons_self)
  obtain ⟨c, others, rfl⟩ := List.exists_cons_of_ne_nil hchars
  have hline : c ≠ '\n' := by
    rintro rfl
    cases hwordChars _ List.mem_cons_self
  have hfirst : (stretch.flatMap Lexeme.cells).head? = some ⟨c, true⟩ := by
    rw [hword]
    rfl
  have hlast : stretch.flatMap Lexeme.cells = inner.flatMap Lexeme.cells ++ [mark] := by
    rw [hmark, List.flatMap_append]
    rfl
  have hread := cells_stretch hcells hfirst rfl hline hlast hsteady
  rw [lexemes, ← map_char_flatMap_cells, hread]
  exact Lexeme.ofCells_flatMap_cells hpart

end ShaderGraph.Glsl
