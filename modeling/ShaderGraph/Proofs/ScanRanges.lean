import ShaderGraph.Proofs.Functions
import ShaderGraph.Proofs.Renaming

/-!
# Where functions stand

Cutting a text into functions loses nothing. Each function is given with the bytes it takes up, from
its return type to the brace that closes its body, and these are a slice of the text. Functions
stand one behind the other, and the preamble is what lies outside their bytes.

`Text.slice?` has no value for bytes outside a text or inside a character, so a slice that has one
says that its bytes are proper. All that a scan looks at is put together from lexemes, and lexemes
in a row are always a slice.
-/

namespace ShaderGraph

/-! ## Slices -/

/-- The text between two bytes. There is none if a byte lies outside the text or inside a character,
or if the second comes before the first. -/
def Text.slice? (text : String) (start stop : Nat) : Option String :=
  if h : (⟨start⟩ : String.Pos.Raw).IsValid text ∧ (⟨stop⟩ : String.Pos.Raw).IsValid text
      ∧ start ≤ stop then
    some (text.extract ⟨⟨start⟩, h.1⟩ ⟨⟨stop⟩, h.2.1⟩)
  else none

/-- What stands between two texts is a slice of the whole. -/
theorem Text.slice?_append (x part y : String) :
    slice? (x ++ part ++ y) x.utf8ByteSize (x ++ part).utf8ByteSize = some part := by
  have hstart : (⟨x.utf8ByteSize⟩ : String.Pos.Raw).IsValid (x ++ part ++ y) :=
    (String.Pos.Raw.isValid_rawEndPos.append_right part).append_right y
  have hstop : (⟨(x ++ part).utf8ByteSize⟩ : String.Pos.Raw).IsValid (x ++ part ++ y) :=
    String.Pos.Raw.isValid_rawEndPos.append_right y
  have hle : x.utf8ByteSize ≤ (x ++ part).utf8ByteSize := by simp
  rw [slice?, dif_pos ⟨hstart, hstop, hle⟩, Option.some_inj, ← String.toByteArray_inj,
    String.toByteArray_extract]
  have hbytes : (x ++ part ++ y).toByteArray
      = x.toByteArray ++ (part.toByteArray ++ y.toByteArray) := by
    simp [ByteArray.append_assoc]
  calc (x ++ part ++ y).toByteArray.extract x.utf8ByteSize (x ++ part).utf8ByteSize
    _ = (x.toByteArray ++ (part.toByteArray ++ y.toByteArray)).extract (x.toByteArray.size + 0)
          (x.toByteArray.size + part.toByteArray.size) := by
      rw [hbytes, String.utf8ByteSize_append]
      rfl
    _ = part.toByteArray := by
      rw [ByteArray.extract_append_size_add, ByteArray.extract_append_eq_left rfl]

namespace Glsl

theorem utf8ByteSize_ofList (text : List Char) :
    (String.ofList text).utf8ByteSize = byteSize text := by
  induction text with
  | nil => rfl
  | cons c rest ih =>
    rw [← List.singleton_append, String.ofList_append, String.utf8ByteSize_append, ih,
      ← String.singleton_eq_ofList, String.utf8ByteSize_singleton]
    rfl

theorem byteSize_append (x y : List Char) : byteSize (x ++ y) = byteSize x + byteSize y := by
  simp only [← utf8ByteSize_ofList, String.ofList_append, String.utf8ByteSize_append]

theorem byteSize_toList (text : String) : byteSize text.toList = text.utf8ByteSize := by
  rw [← utf8ByteSize_ofList, String.ofList_toList]

theorem textOf_append (x y : List Lexeme) : textOf (x ++ y) = textOf x ++ textOf y :=
  List.flatMap_append

theorem slice?_chars {text : String} {x part y : List Char} (h : text.toList = x ++ (part ++ y)) :
    Text.slice? text (byteSize x) (byteSize (x ++ part)) = some (String.ofList part) := by
  have htext : text = String.ofList x ++ String.ofList part ++ String.ofList y := by
    rw [← String.toList_inj, h]
    simp
  rw [htext, ← utf8ByteSize_ofList, ← utf8ByteSize_ofList, String.ofList_append]
  exact Text.slice?_append _ _ _

/-! ## Braces -/

section Braces

variable {lexeme : Lexeme} {lexemes : List Lexeme} {depth : Nat}

/-- How many braces of the code open among cells. -/
def openings (cells : List Cell) : Nat := cells.count ⟨'\x7b', true⟩

/-- How many braces of the code close among cells. -/
def closings (cells : List Cell) : Nat := cells.count ⟨'\x7d', true⟩

/-- A brace, all that stands in it, and the brace that closes it: up to there more have opened than
closed. -/
structure IsBody (cells : List Cell) : Prop where
  first : cells.head? = some ⟨'\x7b', true⟩
  last : cells.getLast? = some ⟨'\x7d', true⟩
  within : ∀ front back, cells = front ++ back → front ≠ [] → back ≠ [] →
    closings front < openings front
  balanced : closings cells = openings cells

theorem openings_append (x y : List Cell) : openings (x ++ y) = openings x + openings y :=
  List.count_append

theorem closings_append (x y : List Cell) : closings (x ++ y) = closings x + closings y :=
  List.count_append

/-- Only a mark counts as a brace. -/
theorem count_cells {lexeme : Lexeme} (h : lexeme.Proper) {mark : Char}
    (hmark : Text.isWordChar mark = false) :
    lexeme.cells.count ⟨mark, true⟩ = if lexeme.isMark mark then 1 else 0 := by
  cases lexeme with
  | word chars =>
    refine List.count_eq_zero.2 fun hmem => ?_
    obtain ⟨c, hc, hcell⟩ := List.mem_map.1 hmem
    obtain rfl : c = mark := congrArg Cell.char hcell
    rw [h.2 c hc] at hmark
    cases hmark
  | other cell =>
    rw [Lexeme.cells, List.count_singleton]
    congr 1
    rw [Bool.eq_iff_iff, Lexeme.isMark_iff]
    simp

/-- Braces are counted as the search for the end of a body nests them. -/
theorem nesting_add_closings (depth : Nat) (h : lexeme.Proper) :
    nesting '\x7b' '\x7d' (depth + 1) lexeme + closings lexeme.cells
      = depth + 1 + openings lexeme.cells := by
  rw [openings, closings, count_cells h (by decide), count_cells h (by decide), nesting]
  by_cases hopen : lexeme.isMark '\x7b' = true
  · have hclose : lexeme.isMark '\x7d' = false := by
      rw [Lexeme.isMark_iff.1 hopen]
      rfl
    simp [hopen, hclose]
  · by_cases hclose : lexeme.isMark '\x7d' = true <;> simp [hopen, hclose]

/-- A lexeme that does not close a body leaves some of its braces open. -/
theorem closings_le_of_not_closes (h : lexeme.Proper)
    (hopen : closes '\x7b' '\x7d' (depth + 1) lexeme = false) :
    closings lexeme.cells ≤ depth ∧ nesting '\x7b' '\x7d' (depth + 1) lexeme ≠ 0 := by
  by_cases hmark : lexeme.isMark '\x7d' = true
  · obtain rfl := Lexeme.isMark_iff.1 hmark
    have hdepth : depth ≠ 0 := by simpa using (show (depth == 0) = false from hopen)
    exact ⟨Nat.one_le_iff_ne_zero.2 hdepth, hdepth⟩
  · have hnone : closings lexeme.cells = 0 := by
      rw [closings, count_cells h (by decide), if_neg hmark]
    have hcount := nesting_add_closings depth h
    omega

/-- Where a body is still open, it has opened more braces than it has closed. -/
theorem closings_of_untilClosed (hproper : ∀ lexeme ∈ lexemes, lexeme.Proper)
    (h : untilClosed '\x7b' '\x7d' (depth + 1) lexemes = some (lexemes, [])) :
    (∀ front back, lexemes.flatMap Lexeme.cells = front ++ back → back ≠ [] →
      closings front ≤ openings front + depth) ∧
    closings (lexemes.flatMap Lexeme.cells)
      = openings (lexemes.flatMap Lexeme.cells) + (depth + 1) := by
  induction lexemes generalizing depth with
  | nil => cases h
  | cons lexeme tail ih =>
    obtain ⟨hlexeme, htail⟩ := List.forall_mem_cons.1 hproper
    have hcount := nesting_add_closings depth hlexeme
    obtain ⟨hclosed, hone, -⟩ | ⟨hopen, more, hmore, hself⟩ := untilClosed_cons_eq_some_iff.1 h
    · obtain rfl : tail = [] := (List.cons.inj hone).2
      obtain ⟨hmark, hdepth⟩ := Bool.and_eq_true_iff.1 hclosed
      obtain rfl := Lexeme.isMark_iff.1 hmark
      obtain rfl : depth = 0 := beq_iff_eq.1 hdepth
      refine ⟨fun front back hsplit hback => ?_, rfl⟩
      obtain ⟨rfl, -⟩ | ⟨-, rfl⟩ := List.singleton_eq_append_iff.1 hsplit
      · exact Nat.zero_le _
      · exact absurd rfl hback
    · obtain rfl : tail = more := (List.cons.inj hmore).2
      obtain ⟨hle, hnesting⟩ := closings_le_of_not_closes hlexeme hopen
      obtain ⟨inner, hinner⟩ := Nat.exists_eq_succ_of_ne_zero hnesting
      rw [hinner] at hself hcount
      obtain ⟨hwithin, hwhole⟩ := ih htail hself
      rw [List.flatMap_cons]
      refine ⟨fun front back hsplit hback => ?_, ?_⟩
      · -- the split falls behind the lexeme, or within it
        obtain ⟨rest, rfl, hrest⟩ | ⟨rest, hcells, rfl⟩ := List.append_eq_append_iff.1 hsplit
        · have := hwithin rest back hrest hback
          rw [openings_append, closings_append]
          omega
        · rw [hcells, closings_append] at hle
          omega
      · rw [openings_append, closings_append]
        omega

/-- **What is enclosed in braces is a body.** -/
theorem isBody_of_enclosed (hproper : ∀ lexeme ∈ lexemes, lexeme.Proper)
    (h : Enclosed '\x7b' '\x7d' lexemes) : IsBody (lexemes.flatMap Lexeme.cells) := by
  obtain ⟨first, tail, rfl, hmark, hself⟩ := h
  obtain ⟨inner, hlast⟩ := exists_last_of_untilClosed hself
  obtain rfl := Lexeme.isMark_iff.1 hmark
  obtain ⟨hclosed, -⟩ | ⟨-, more, hmore, hself⟩ := untilClosed_cons_eq_some_iff.1 hself
  · cases hclosed
  obtain rfl : tail = more := (List.cons.inj hmore).2
  obtain ⟨hwithin, hwhole⟩ := closings_of_untilClosed (List.forall_mem_cons.1 hproper).2 hself
  have hcells : (Lexeme.other ⟨'\x7b', true⟩ :: tail).flatMap Lexeme.cells
      = ⟨'\x7b', true⟩ :: tail.flatMap Lexeme.cells := rfl
  have hopenings (cells : List Cell) : openings (⟨'\x7b', true⟩ :: cells) = openings cells + 1 :=
    List.count_cons_self
  have hclosings (cells : List Cell) : closings (⟨'\x7b', true⟩ :: cells) = closings cells :=
    List.count_cons_of_ne (by decide)
  refine ⟨rfl, ?_, fun front back hsplit hfront hback => ?_, ?_⟩
  · rw [hlast, List.flatMap_append]
    exact List.getLast?_concat
  · rcases front with _ | ⟨cell, front⟩
    · exact absurd rfl hfront
    · obtain ⟨rfl, hrest⟩ := List.cons.inj hsplit
      rw [hclosings, hopenings]
      exact Nat.lt_succ_of_le (hwithin front back hrest hback)
  · rw [hcells, hclosings, hopenings, hwhole]

end Braces

/-! ## Ranges -/

section Ranges

variable {start : Nat} {cuts : List Cut}

theorem utf8ByteSize_text (l : Layout) :
    l.function.text.utf8ByteSize = byteSize (textOf l.lexemes) :=
  utf8ByteSize_ofList _

theorem textOf_loose (lexeme : Lexeme) : textOf (Cut.loose lexeme).lexemes = lexeme.chars :=
  List.append_nil _

/-- A function starts behind the cuts before it. -/
theorem exists_split_of_mem_functionsFrom {p : Placed}
    (h : p ∈ functionsFrom start (cuts.map Cut.part)) :
    ∃ before l after, cuts = before ++ .function l :: after ∧
      p = ⟨l.function, start + byteSize (textOf (before.flatMap Cut.lexemes))⟩ := by
  induction cuts generalizing start with
  | nil => cases h
  | cons cut rest ih =>
    cases cut with
    | function l =>
      rcases List.mem_cons.1 h with rfl | h
      · exact ⟨[], l, rest, rfl, rfl⟩
      · obtain ⟨before, l', after, rfl, rfl⟩ := ih h
        refine ⟨.function l :: before, l', after, rfl, ?_⟩
        rw [List.flatMap_cons, textOf_append, byteSize_append, ← Nat.add_assoc, utf8ByteSize_text]
        rfl
    | loose lexeme =>
      obtain ⟨before, l, after, rfl, rfl⟩ := ih h
      refine ⟨.loose lexeme :: before, l, after, rfl, ?_⟩
      rw [List.flatMap_cons, textOf_append, byteSize_append, ← Nat.add_assoc, textOf_loose]

/-- Functions stand one behind the other. -/
theorem pairwise_functionsFrom (start : Nat) (cuts : List Cut) :
    (functionsFrom start (cuts.map Cut.part)).Pairwise fun p q => p.stop ≤ q.start := by
  induction cuts generalizing start with
  | nil => exact .nil
  | cons cut rest ih =>
    cases cut with
    | loose lexeme => exact ih _
    | function l =>
      refine List.pairwise_cons.2 ⟨fun q hq => ?_, ih _⟩
      obtain ⟨before, l', after, -, rfl⟩ := exists_split_of_mem_functionsFrom hq
      exact Nat.le_add_right _ _

/-- The ranges of bytes that functions leave, from a byte on. -/
def rangesBetween (start size : Nat) : List Placed → List (Nat × Nat)
  | [] => [(start, size)]
  | p :: rest => (start, p.start) :: rangesBetween p.stop size rest

/-- **The text between functions is what lies outside their ranges.** Some of the first piece may
have been passed already. -/
theorem map_slice?_rangesBetween {text : String} {front passed : List Char}
    (h : text.toList = front ++ (passed ++ textOf (cuts.flatMap Cut.lexemes))) {gap : List Char}
    {more : List (List Char)} (hgaps : gaps (cuts.map Cut.part) = gap :: more) :
    (rangesBetween (byteSize front) text.utf8ByteSize
        (functionsFrom (byteSize (front ++ passed)) (cuts.map Cut.part))).map
      (fun range => Text.slice? text range.1 range.2)
      = ((passed ++ gap) :: more).map fun piece => some (String.ofList piece) := by
  -- a loose lexeme is passed, and a function ends the piece
  induction cuts generalizing front passed gap more with
  | nil =>
    obtain ⟨rfl, rfl⟩ := List.cons.inj hgaps
    have hsize : text.utf8ByteSize = byteSize (front ++ passed) := by
      rw [← byteSize_toList, h]
      exact congrArg byteSize (congrArg (front ++ ·) (List.append_nil passed))
    simp only [List.map_nil, functionsFrom, rangesBetween, List.map_cons, List.append_nil, hsize,
      slice?_chars h]
  | cons cut rest ih =>
    obtain ⟨gap', more', hrest⟩ := List.exists_cons_of_ne_nil (gaps_ne_nil (rest.map Cut.part))
    rw [List.flatMap_cons, textOf_append] at h
    cases cut with
    | function l =>
      obtain ⟨rfl, rfl⟩ := List.cons.inj hgaps
      have hsize : byteSize (front ++ passed ++ textOf l.lexemes)
          = byteSize (front ++ passed) + l.function.text.utf8ByteSize := by
        rw [byteSize_append _ (textOf l.lexemes), utf8ByteSize_text]
      have htext : text.toList = (front ++ passed ++ textOf l.lexemes)
          ++ ([] ++ textOf (rest.flatMap Cut.lexemes)) := by
        rw [h]
        simp only [Cut.lexemes, List.append_assoc, List.nil_append]
      have hmore := ih htext hrest
      rw [List.append_nil, hsize, List.nil_append, ← hrest] at hmore
      rw [List.map_cons, Cut.part, functionsFrom, rangesBetween, List.map_cons, slice?_chars h,
        List.append_nil, List.map_cons]
      exact congrArg _ hmore
    | loose lexeme =>
      have hsize : byteSize (front ++ passed) + byteSize lexeme.chars
          = byteSize (front ++ (passed ++ lexeme.chars)) := by
        rw [← byteSize_append, List.append_assoc]
      have htext : text.toList
          = front ++ ((passed ++ lexeme.chars) ++ textOf (rest.flatMap Cut.lexemes)) := by
        rw [h, textOf_loose, List.append_assoc passed]
      rw [List.map_cons, Cut.part, gaps, hrest] at hgaps
      obtain ⟨rfl, rfl⟩ := List.cons.inj hgaps
      rw [List.map_cons, Cut.part, functionsFrom, hsize, ih htext hrest, List.append_assoc]

end Ranges

/-! ## The ranges of a scan -/

/-- A function that stands in a text at its place: a slice of the text that starts with the return
type and ends with the body. -/
structure Placed.StandsIn (p : Placed) (text : String) : Prop where
  nonempty : p.start < p.stop
  slice : Text.slice? text p.start p.stop = some p.function.text
  body : ∃ before header body after, cells text.toList = before ++ (header ++ body ++ after) ∧
    byteSize (before.map Cell.char) = p.start ∧
    (header ++ body).map Cell.char = p.function.text.toList ∧
    p.function.returnType.toList <+: header.map Cell.char ∧ IsBody body

theorem slice?_lexemes {text : String} {before stretch after : List Lexeme}
    (h : lexemes text.toList = before ++ (stretch ++ after)) :
    Text.slice? text (byteSize (textOf before)) (byteSize (textOf (before ++ stretch)))
      = some (String.ofList (textOf stretch)) := by
  have htext : text.toList = textOf before ++ (textOf stretch ++ textOf after) := by
    rw [← (reads_lexemes text.toList).2, h, textOf_append, textOf_append]
  rw [textOf_append]
  exact slice?_chars htext

theorem standsIn_of_valid {text : String} {l : Layout} (hl : l.Valid) {before after : List Lexeme}
    (h : lexemes text.toList = before ++ (l.lexemes ++ after)) :
    Placed.StandsIn ⟨l.function, byteSize (textOf before)⟩ text := by
  have hstop : Placed.stop ⟨l.function, byteSize (textOf before)⟩
      = byteSize (textOf (before ++ l.lexemes)) := by
    rw [textOf_append, byteSize_append, ← utf8ByteSize_text]
    rfl
  have hproper : ∀ lexeme ∈ l.body, lexeme.Proper := by
    intro lexeme hlexeme
    refine (wellFormed_lexemes text.toList).proper lexeme ?_
    rw [h, Layout.lexemes]
    simp [hlexeme]
  refine ⟨?_, ?_, ?_⟩
  · obtain ⟨inner, hlast⟩ := Layout.exists_last_of_valid hl
    have hsize : byteSize (textOf [.other ⟨'\x7d', true⟩]) = 1 := rfl
    rw [hstop, hlast, textOf_append, textOf_append, byteSize_append, byteSize_append, hsize]
    change byteSize (textOf before) < _
    omega
  · rw [hstop]
    exact slice?_lexemes h
  · let header := l.type :: l.typeGap ++ l.name :: l.nameGap ++ l.params ++ l.paramsGap
    have hlexemes : l.lexemes = header ++ l.body := rfl
    refine ⟨before.flatMap Lexeme.cells, header.flatMap Lexeme.cells, l.body.flatMap Lexeme.cells,
      after.flatMap Lexeme.cells, ?_, ?_, ?_, ?_, isBody_of_enclosed hproper hl.body⟩
    · rw [← Lexeme.flatMap_cells_ofCells (cells text.toList), ← lexemes, h, hlexemes]
      simp only [List.flatMap_append]
    · rw [map_char_flatMap_cells]
    · rw [← List.flatMap_append, map_char_flatMap_cells, ← hlexemes]
      exact String.toList_ofList.symm
    · rw [map_char_flatMap_cells, Layout.function, String.toList_ofList]
      exact List.prefix_append _ _

/-- The preamble in terms of texts. -/
theorem preamble_eq (text : String) :
    (scan text).preamble = "\n".intercalate
      ((((gaps (parts text.toList)).map String.ofList).map Text.trimmed).filter (· ≠ "")) := by
  have hempty : (fun x => decide (x ≠ "")) ∘ String.ofList = fun piece => !piece.isEmpty := by
    funext piece
    rw [Bool.eq_iff_iff]
    simp
  have htrimmed (pieces : List (List Char)) : (pieces.map String.ofList).map Text.trimmed
      = (pieces.map Text.trim).map String.ofList := by
    simp [Text.trimmed]
  rw [htrimmed, List.filter_map, hempty, ← String.toList_inj, String.toList_intercalate,
    List.map_map]
  simp [scan, Function.comp_def]

/-- **Scanning loses nothing.** Every function stands in the text at its place, and functions stand
one behind the other. The preamble is the slices outside their ranges, trimmed, one to a line, and
those with nothing in them are left out. Whatever lexemes in a row the scan takes together, they are
a slice of the text. -/
theorem scan_ranges (text : String) :
    (∀ p ∈ (scan text).functions, p.StandsIn text) ∧
    ((scan text).functions.Pairwise fun p q => p.stop ≤ q.start) ∧
    (∃ pieces : List String,
      (rangesBetween 0 text.utf8ByteSize (scan text).functions).map
        (fun range => Text.slice? text range.1 range.2) = pieces.map some ∧
      (scan text).preamble = "\n".intercalate ((pieces.map Text.trimmed).filter (· ≠ ""))) ∧
    ∀ before stretch after, lexemes text.toList = before ++ (stretch ++ after) →
      Text.slice? text (byteSize (textOf before)) (byteSize (textOf (before ++ stretch)))
        = some (String.ofList (textOf stretch)) := by
  obtain ⟨cuts, hcuts⟩ := exists_cuts 0 (lexemes text.toList)
  have hparts : parts text.toList = cuts.map Cut.part := hcuts.partsFrom_eq
  have hfunctions : (scan text).functions = functionsFrom 0 (cuts.map Cut.part) := by
    rw [← hparts]
    rfl
  refine ⟨fun p hp => ?_, ?_, ?_, fun before stretch after h => slice?_lexemes h⟩
  · rw [hfunctions] at hp
    obtain ⟨before, l, after, rfl, rfl⟩ := exists_split_of_mem_functionsFrom hp
    have hlexemes : lexemes text.toList
        = before.flatMap Cut.lexemes ++ (l.lexemes ++ after.flatMap Cut.lexemes) := by
      rw [← hcuts.flatMap_lexemes, List.flatMap_append, List.flatMap_cons]
      rfl
    rw [Nat.zero_add]
    exact standsIn_of_valid (hcuts.valid (by simp)) hlexemes
  · rw [hfunctions]
    exact pairwise_functionsFrom 0 cuts
  · obtain ⟨gap, more, hgaps⟩ := List.exists_cons_of_ne_nil (gaps_ne_nil (cuts.map Cut.part))
    have htext : text.toList = [] ++ ([] ++ textOf (cuts.flatMap Cut.lexemes)) := by
      rw [hcuts.flatMap_lexemes, (reads_lexemes text.toList).2]
      rfl
    refine ⟨(gaps (parts text.toList)).map String.ofList, ?_, preamble_eq text⟩
    rw [hfunctions, hparts, hgaps, List.map_map]
    exact map_slice?_rangesBetween htext hgaps

/-- A brace in a comment does not end a function, and what lies outside its range are two pieces. -/
theorem scan_ranges_comment :
    let p : Placed := ⟨⟨"int", "f", [], "int f()\x7b/*\x7d*/\x7d"⟩, 3⟩
    p ∈ (scan "é;int f()\x7b/*\x7d*/\x7db").functions ∧
      p.StandsIn "é;int f()\x7b/*\x7d*/\x7db" ∧
      (scan "é;int f()\x7b/*\x7d*/\x7db").preamble = "é;\nb" := by
  intro p
  have hp : p ∈ (scan "é;int f()\x7b/*\x7d*/\x7db").functions := by decide +kernel
  exact ⟨hp, (scan_ranges _).1 p hp, by decide +kernel⟩

end Glsl
end ShaderGraph
