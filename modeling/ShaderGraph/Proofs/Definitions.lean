import ShaderGraph.Proofs.JoinedFunctions
import ShaderGraph.Proofs.ScanRanges

/-!
# Texts made of definitions

A definition is a type and a name, parameters in parentheses and a body in braces, and a precision
word may stand before the type. Brackets are said by counting: up to the last mark more have opened
than closed, and in the end as many. A text made of definitions with blanks between them is scanned
definition by definition (`lexemes_source_cons`), since each ends with a brace of the code.

Where no type and no name is reserved, there is one function for each definition. It starts at the
type, so a precision word is left over and goes to the preamble, and the preamble is empty exactly
if there is no such word and nothing is reserved (`scan_definitions`).
-/

namespace ShaderGraph.Glsl

/-! ## Brackets by counting -/

section Brackets

variable {opening closing : Char} {lexemes : List Lexeme}

/-- A character of the code that belongs to no word. -/
def mark (c : Char) : Lexeme := .other ⟨c, true⟩

/-- A mark, all that stands in it, and the mark that closes it: up to there more have opened than
closed. -/
def Balanced (opening closing : Char) (lexemes : List Lexeme) : Prop :=
  lexemes.head? = some (mark opening) ∧
  (∀ n < lexemes.length, 0 < n →
    (lexemes.take n).count (mark closing) < (lexemes.take n).count (mark opening)) ∧
  lexemes.count (mark closing) = lexemes.count (mark opening)

instance : Decidable (Balanced opening closing lexemes) := inferInstanceAs (Decidable (_ ∧ _ ∧ _))

/-- What one lexeme does to the number of open marks, and to the counts. -/
theorem nesting_add_count (hne : opening ≠ closing) (depth : Nat) (lexeme : Lexeme) :
    nesting opening closing (depth + 1) lexeme + [lexeme].count (mark closing)
      = depth + 1 + [lexeme].count (mark opening) := by
  by_cases hopen : lexeme = mark opening
  · subst hopen
    simp [nesting, mark, Lexeme.isMark, hne]
  · by_cases hclose : lexeme = mark closing
    · subst hclose
      simp [nesting, mark, Lexeme.isMark, Ne.symm hne]
    · have hopen' : ¬lexeme.isMark opening = true := fun h => hopen (Lexeme.isMark_iff.1 h)
      have hclose' : ¬lexeme.isMark closing = true := fun h => hclose (Lexeme.isMark_iff.1 h)
      simp [nesting, hopen, hclose, hopen', hclose']

/-- Marks that are closed only at the end are searched to the end. -/
theorem untilClosed_of_counts (hne : opening ≠ closing) {depth : Nat}
    (hwithin : ∀ n < lexemes.length, (lexemes.take n).count (mark closing)
      < (lexemes.take n).count (mark opening) + (depth + 1))
    (hwhole : lexemes.count (mark closing) = lexemes.count (mark opening) + (depth + 1)) :
    untilClosed opening closing (depth + 1) lexemes = some (lexemes, []) := by
  induction lexemes generalizing depth with
  | nil => simp at hwhole
  | cons lexeme tail ih =>
    have hcount := nesting_add_count hne depth lexeme
    have hsplit (xs : List Lexeme) (m : Lexeme) : (lexeme :: xs).count m
        = [lexeme].count m + xs.count m := by rw [← List.count_append, List.singleton_append]
    rw [hsplit tail, hsplit tail] at hwhole
    refine untilClosed_cons_eq_some_iff.2 ?_
    by_cases hdone : nesting opening closing (depth + 1) lexeme = 0
    · -- all that was open is closed, so nothing is left
      have htail : tail = [] := by
        by_contra hmore
        have hone := hwithin 1 (by simpa using List.length_pos_iff.2 hmore)
        simp only [List.take_succ_cons, List.take_zero] at hone
        omega
      subst htail
      have hclosing : lexeme.isMark closing = true := by
        by_contra hother
        rw [nesting, if_neg hother] at hdone
        split at hdone <;> omega
      exact .inl ⟨by simp [closes, hclosing, hdone], rfl, rfl⟩
    · obtain ⟨inner, hinner⟩ := Nat.exists_eq_succ_of_ne_zero hdone
      refine .inr ⟨by simp [closes, hdone], tail, rfl, ?_⟩
      rw [hinner] at hcount ⊢
      refine ih (fun n hn => ?_) (by omega)
      have hnext := hwithin (n + 1) (by simpa using hn)
      rw [List.take_succ_cons, hsplit (tail.take n), hsplit (tail.take n)] at hnext
      omega

theorem Balanced.enclosed (hne : opening ≠ closing) (h : Balanced opening closing lexemes) :
    Enclosed opening closing lexemes := by
  obtain ⟨hfirst, hwithin, hwhole⟩ := h
  obtain ⟨tail, rfl⟩ := List.head?_eq_some_iff.1 hfirst
  have hclosing : mark opening ≠ mark closing := by simpa [mark] using hne
  refine ⟨mark opening, tail, rfl, Lexeme.isMark_iff.2 rfl, ?_⟩
  rw [List.count_cons_of_ne hclosing, List.count_cons_self] at hwhole
  have htail : untilClosed opening closing 1 tail = some (tail, []) := by
    refine untilClosed_of_counts hne (fun n hn => ?_) hwhole
    have hnext := hwithin (n + 1) (by simpa using hn) (Nat.succ_pos n)
    rwa [List.take_succ_cons, List.count_cons_of_ne hclosing, List.count_cons_self] at hnext
  refine untilClosed_cons_eq_some_iff.2 (.inr ⟨?_, tail, rfl, ?_⟩)
  · simp [closes, mark, Lexeme.isMark, hne]
  · simpa [nesting, mark, Lexeme.isMark] using htail

end Brackets

/-! ## Definitions -/

/-- The words that say how precise numbers are. -/
def precisions : List String := ["highp", "mediump", "lowp"]

/-- What may stand before the type: nothing, or a precision word and a gap. -/
inductive IsLead : List Lexeme → Prop where
  | nil : IsLead []
  | precision {word : String} {gap : List Lexeme} (hword : word ∈ precisions)
      (hgap : ∀ g ∈ gap, g.isTrivial = true) : IsLead (.word word.toList :: gap)

/-- Identifiers for type and name, brackets that balance, and nothing else that says anything. -/
structure Layout.Written (l : Layout) : Prop where
  type : l.type.identifier?.isSome = true
  typeGap : ∀ g ∈ l.typeGap, g.isTrivial = true
  name : l.name.identifier?.isSome = true
  nameGap : ∀ g ∈ l.nameGap, g.isTrivial = true
  params : Balanced '(' ')' l.params
  paramsGap : ∀ g ∈ l.paramsGap, g.isTrivial = true
  body : Balanced '\x7b' '\x7d' l.body

/-- Neither the type nor the name is a reserved word. -/
def Layout.Free (l : Layout) : Prop :=
  String.ofList l.type.chars ∉ reservedWords ∧ String.ofList l.name.chars ∉ reservedWords

/-- Characters that are all blank. -/
abbrev Blanks := { text : List Char // text.all Text.isBlank = true }

/-- A definition in a text, with the blanks before it. -/
structure Definition where
  before : Blanks
  lead : List Lexeme
  layout : Layout
  isLead : IsLead lead
  written : layout.Written
  /-- What it is written with is what its text reads as. -/
  reads : lexemes (textOf (lead ++ layout.lexemes)) = lead ++ layout.lexemes

namespace Definition

/-- The definition as it is written. -/
def text (d : Definition) : List Char := textOf (d.lead ++ d.layout.lexemes)

/-- What stands before the type, without the blanks behind it. -/
def leadText (d : Definition) : String := Text.trimmed (String.ofList (textOf d.lead))

/-- A definition that is scanned as it is meant. -/
def Clean (d : Definition) : Prop := d.lead = [] ∧ d.layout.Free

end Definition

/-- Definitions one behind the other, with blanks before each and at the end. -/
def source (definitions : List Definition) (tail : Blanks) : List Char :=
  definitions.flatMap (fun d => d.before.1 ++ d.text) ++ tail.1

/-! ## Reading definitions -/

theorem Lexeme.exists_word_of_identifier? {lexeme : Lexeme}
    (h : lexeme.identifier?.isSome = true) :
    ∃ chars, lexeme = .word chars ∧ Text.startsIdentifier chars = true := by
  cases lexeme with
  | word chars => exact ⟨chars, rfl, by simpa [identifier?] using h⟩
  | other cell => cases h

theorem Lexeme.isPlain_of_identifier? {lexeme : Lexeme} (h : lexeme.identifier?.isSome = true)
    (hfree : String.ofList lexeme.chars ∉ reservedWords) : lexeme.IsPlain := by
  obtain ⟨chars, rfl, hstart⟩ := exists_word_of_identifier? h
  exact ⟨chars, rfl, hstart, hfree⟩

/-- Without reserved words a function is laid out. -/
theorem Layout.Written.valid {l : Layout} (h : l.Written) (hfree : l.Free) : l.Valid where
  type := Lexeme.isPlain_of_identifier? h.type hfree.1
  typeGap := h.typeGap
  name := Lexeme.isPlain_of_identifier? h.name hfree.2
  nameGap := h.nameGap
  params := h.params.enclosed (by decide)
  paramsGap := h.paramsGap
  body := h.body.enclosed (by decide)

theorem lexemes_blanks_append (blanks : Blanks) (rest : List Char) :
    lexemes (blanks.1 ++ rest) = blanks.1.map mark ++ lexemes rest := by
  obtain ⟨blanks, hblanks⟩ := blanks
  induction blanks with
  | nil => rfl
  | cons c more ih =>
    obtain ⟨hc, hmore⟩ := Bool.and_eq_true_iff.1 hblanks
    have hbreak : isBreak c = true := isBreak_of_isBlank hc
    have hcell : ((⟨c, true⟩ : Cell).isCode && Text.isWordChar c) = false :=
      isWordChar_eq_false_of_isBlank hc
    rw [List.cons_append, lexemes, ← List.nil_append (c :: (more ++ rest)),
      cells_append_cons hbreak (closedBy_nil hbreak), Lexeme.ofCells_append_cons hcell, ← lexemes,
      ← lexemes, ih hmore]
    rfl

/-- A break that a text ends with, as code, closes what stands before it. -/
theorem closedBy_of_cells {x : List Char} {c : Char} {inner : List Cell} (hc : isBreak c = true)
    (hline : c ≠ '\n') (h : cells (x ++ [c]) = inner ++ [⟨c, true⟩]) : ClosedBy c x := by
  have hplain := hc
  simp only [isBreak, isSteady, Bool.and_eq_true, bne_iff_ne] at hplain
  rw [cells, cellsFrom_append] at h
  have hlast := List.append_inj_right' h rfl
  have hcode : stateBefore (some c) (.inside .code) x = .inside .code :=
    eq_code_of_step (congrArg Cell.isCode (List.cons.inj hlast).1) hline
  obtain ⟨-, hstate | ⟨-, hpassing⟩⟩ :=
    before_cases hplain.1.1.1.1 hplain.1.1.1.2 (.inside .code) x
  · exact closedBy_of_code hc (hstate.symm.trans hcode)
  · rw [hpassing] at hcode
    cases hcode

/-- What follows a brace of the code is read anew. -/
theorem lexemes_append_of_brace {text : List Char} {inner : List Lexeme}
    (h : lexemes text = inner ++ [mark '\x7d']) (rest : List Char) :
    lexemes (text ++ rest) = lexemes text ++ lexemes rest := by
  have htext : text = textOf inner ++ ['\x7d'] := by
    rw [← (reads_lexemes text).2, h, textOf_append]
    rfl
  have hcells : cells text = inner.flatMap Lexeme.cells ++ [⟨'\x7d', true⟩] := by
    rw [← Lexeme.flatMap_cells_ofCells (cells text), ← lexemes, h, List.flatMap_append]
    rfl
  have hclosed : ClosedBy '\x7d' (textOf inner) :=
    closedBy_of_cells (by decide) (by decide) (htext ▸ hcells)
  have hread (more : List Char) : lexemes (textOf inner ++ '\x7d' :: more)
      = lexemes (textOf inner) ++ mark '\x7d' :: lexemes more := by
    rw [lexemes, cells_append_cons (by decide) hclosed, Lexeme.ofCells_append_cons (by decide)]
    rfl
  rw [htext, List.append_assoc, List.singleton_append, hread, hread]
  simp [lexemes, cells, cellsFrom, Lexeme.ofCells]

/-- **A definition is read by itself**, whatever follows it. -/
theorem lexemes_source_cons (d : Definition) (definitions : List Definition) (tail : Blanks) :
    lexemes (source (d :: definitions) tail) = d.before.1.map mark
      ++ (d.lead ++ (d.layout.lexemes ++ lexemes (source definitions tail))) := by
  obtain ⟨inner, hlast⟩ : ∃ inner, d.lead ++ d.layout.lexemes = inner ++ [mark '\x7d'] := by
    obtain ⟨_, _, -, -, hself⟩ := d.written.body.enclosed (by decide)
    obtain ⟨inner, hbody⟩ := exists_last_of_untilClosed hself
    refine ⟨d.lead ++ (d.layout.type :: d.layout.typeGap ++ d.layout.name :: d.layout.nameGap
      ++ d.layout.params ++ d.layout.paramsGap ++ inner), ?_⟩
    simp only [Layout.lexemes, hbody, mark, List.append_assoc, List.cons_append]
  have hsource : source (d :: definitions) tail
      = d.before.1 ++ (d.text ++ source definitions tail) := by
    simp only [source, List.flatMap_cons, List.append_assoc]
  have hread : lexemes d.text = d.lead ++ d.layout.lexemes := d.reads
  rw [hsource, lexemes_blanks_append, lexemes_append_of_brace (hread.trans hlast), hread,
    List.append_assoc]

/-! ## Parts and gaps -/

/-- Whether a lexeme is left over wherever it stands: it is no identifier and opens no brace. -/
def Lexeme.isIdle (lexeme : Lexeme) : Bool :=
  lexeme.identifier?.isNone && !lexeme.isMark '\x7b'

theorem Lexeme.isIdle_of_isTrivial {lexeme : Lexeme} (h : lexeme.isTrivial = true) :
    lexeme.isIdle = true := by
  by_cases hmark : lexeme.isMark '\x7b' = true
  · rw [isTrivial_of_isMark hmark (by decide)] at h
    cases h
  · cases lexeme with
    | word chars => cases h
    | other cell => simpa [isIdle, identifier?] using hmark

theorem isIdle_mark_of_isBlank {c : Char} (h : Text.isBlank c = true) :
    (mark c).isIdle = true := by
  have hbrace : c ≠ '\x7b' := by
    rintro rfl
    cases h
  simp [mark, Lexeme.isIdle, Lexeme.identifier?, Lexeme.isMark, hbrace]

/-- At the top level only an opening brace leads away from it. -/
theorem partsFrom_loose_top {lexeme : Lexeme} {rest : List Lexeme}
    (hbrace : lexeme.isMark '\x7b' = false) (h : function? (lexeme :: rest) = none) :
    partsFrom 0 (lexeme :: rest) = .loose lexeme :: partsFrom 0 rest := by
  have hnesting : nesting '\x7b' '\x7d' 0 lexeme = 0 := by simp [nesting, hbrace]
  rw [partsFrom_loose fun _ => h, hnesting]

theorem partsFrom_idle_append {idle : List Lexeme} (hidle : ∀ lexeme ∈ idle, lexeme.isIdle = true)
    (rest : List Lexeme) : partsFrom 0 (idle ++ rest) = idle.map .loose ++ partsFrom 0 rest := by
  induction idle with
  | nil => rfl
  | cons lexeme more ih =>
    obtain ⟨hlexeme, hmore⟩ := List.forall_mem_cons.1 hidle
    simp only [Lexeme.isIdle, Bool.and_eq_true, Option.isNone_iff_eq_none,
      Bool.not_eq_true'] at hlexeme
    have hnone : function? (lexeme :: (more ++ rest)) = none := by
      simp [function?, plainWord?, hlexeme.1]
    rw [List.cons_append, partsFrom_loose_top hlexeme.2 hnone, ih hmore]
    rfl

/-- What is left over goes to the front of the first gap. -/
theorem gaps_loose_append (loose : List Lexeme) (parts : List Part) :
    ∃ gap more, gaps parts = gap :: more ∧
      gaps (loose.map .loose ++ parts) = (textOf loose ++ gap) :: more := by
  induction loose with
  | nil =>
    obtain ⟨gap, more, hgaps⟩ := List.exists_cons_of_ne_nil (gaps_ne_nil parts)
    exact ⟨gap, more, hgaps, hgaps⟩
  | cons lexeme rest ih =>
    obtain ⟨gap, more, hgaps, hloose⟩ := ih
    refine ⟨gap, more, hgaps, ?_⟩
    rw [List.map_cons, List.cons_append, gaps, hloose]
    simp [textOf]

/-! ## Where no function starts -/

theorem plainWord?_of_reserved {lexeme : Lexeme}
    (h : String.ofList lexeme.chars ∈ reservedWords) (rest : List Lexeme) :
    plainWord? (lexeme :: rest) = none := by
  refine Option.eq_none_iff_forall_ne_some.2 ?_
  rintro ⟨found, word, after⟩ hfound
  obtain ⟨hcons, ⟨chars, hword, -, hfree⟩, -⟩ := plainWord?_eq_some_iff.1 hfound
  obtain ⟨rfl, -⟩ := List.cons.inj hcons
  rw [hword] at h
  exact hfree h

section NoFunction

variable {first second : Lexeme} {gap rest : List Lexeme}
  (hgap : ∀ g ∈ gap, g.isTrivial = true) (hsecond : second.isTrivial = false)

include hgap hsecond

/-- A function needs a name behind its first word. -/
theorem function?_of_no_name (h : plainWord? (second :: rest) = none) :
    function? (first :: (gap ++ second :: rest)) = none := by
  simp only [function?, Option.bind_eq_bind, Option.bind_eq_none_iff, Prod.forall]
  intro found word after hfirst
  obtain ⟨hcons, -⟩ := plainWord?_eq_some_iff.1 hfirst
  obtain ⟨-, rfl⟩ := List.cons.inj hcons
  rw [afterTrivia_append hgap hsecond, h]
  intro _ _ _ hname
  cases hname

/-- A function needs its parameters right behind its second word. -/
theorem function?_of_no_params {gap' : List Lexeme} {third : Lexeme}
    (hgap' : ∀ g ∈ gap', g.isTrivial = true) (hthird : third.isTrivial = false)
    (hmark : third.isMark '(' = false) :
    function? (first :: (gap ++ second :: (gap' ++ third :: rest))) = none := by
  simp only [function?, Option.bind_eq_bind, Option.bind_eq_none_iff, Prod.forall]
  intro found word after hfirst
  obtain ⟨hcons, -⟩ := plainWord?_eq_some_iff.1 hfirst
  obtain ⟨-, rfl⟩ := List.cons.inj hcons
  rw [afterTrivia_append hgap hsecond]
  intro found' word' after' hname
  obtain ⟨hcons', -⟩ := plainWord?_eq_some_iff.1 hname
  obtain ⟨-, rfl⟩ := List.cons.inj hcons'
  rw [afterTrivia_append hgap' hthird]
  intro params after'' hparams
  simp [bracketed?, hmark] at hparams

end NoFunction

theorem Layout.lexemes_append (l : Layout) (rest : List Lexeme) :
    l.lexemes ++ rest = l.type :: (l.typeGap ++ l.name :: (l.nameGap
      ++ (l.params ++ (l.paramsGap ++ (l.body ++ rest))))) := by
  simp only [lexemes, List.append_assoc, List.cons_append]

namespace Definition

/-- A definition that is not clean does not start with a function. -/
theorem function?_of_not_clean {d : Definition} (h : ¬d.Clean) (rest : List Lexeme) :
    function? (d.lead ++ (d.layout.lexemes ++ rest)) = none := by
  obtain ⟨type, htype, -⟩ := Lexeme.exists_word_of_identifier? d.written.type
  obtain ⟨name, hname, -⟩ := Lexeme.exists_word_of_identifier? d.written.name
  have htypeWord : d.layout.type.isTrivial = false := by rw [htype]; rfl
  have hnameWord : d.layout.name.isTrivial = false := by rw [hname]; rfl
  have hnameMark : d.layout.name.isMark '(' = false := by rw [hname]; rfl
  rw [Layout.lexemes_append]
  rw [Clean, Layout.Free] at h
  have hlead := d.isLead
  generalize d.lead = lead at h hlead ⊢
  cases hlead with
  | nil =>
    rw [List.nil_append]
    by_cases htypeFree : String.ofList d.layout.type.chars ∈ reservedWords
    · rw [function?, plainWord?_of_reserved htypeFree]
      rfl
    · have hnameTaken : String.ofList d.layout.name.chars ∈ reservedWords := by
        by_contra hnameFree
        exact h ⟨rfl, htypeFree, hnameFree⟩
      exact function?_of_no_name d.written.typeGap hnameWord (plainWord?_of_reserved hnameTaken _)
  | precision hword hgap =>
    -- with the precision word the name comes third, where the parameters should start
    exact function?_of_no_params hgap htypeWord d.written.typeGap hnameWord hnameMark

/-- Whether clean or not, a definition starts with a word. -/
theorem exists_word (d : Definition) (rest : List Lexeme) :
    ∃ c chars more, d.lead ++ (d.layout.lexemes ++ rest) = .word (c :: chars) :: more
      ∧ Text.isWordStart c = true := by
  have hlead := d.isLead
  generalize d.lead = lead at hlead ⊢
  cases hlead with
  | nil =>
    obtain ⟨_ | ⟨c, chars⟩, htype, hstart⟩ := Lexeme.exists_word_of_identifier? d.written.type
    · cases hstart
    · rw [List.nil_append, Layout.lexemes_append, htype]
      exact ⟨c, chars, _, rfl, hstart⟩
  | precision hword hgap =>
    simp only [precisions, List.mem_cons, List.not_mem_nil, or_false] at hword
    obtain rfl | rfl | rfl := hword <;> exact ⟨_, _, _, rfl, by decide⟩

/-- A definition without reserved words is a function, and its lead is left over. -/
theorem partsFrom_of_free {d : Definition} (hfree : d.layout.Free) (rest : List Lexeme) :
    partsFrom 0 (d.lead ++ (d.layout.lexemes ++ rest))
      = d.lead.map .loose ++ .function d.layout.function :: partsFrom 0 rest := by
  have hfound := partsFrom_function (Layout.function?_of_valid (d.written.valid hfree) rest)
  by_cases hclean : d.Clean
  · rw [hclean.1]
    exact hfound
  · have hnone := function?_of_not_clean hclean rest
    have hlead := d.isLead
    generalize d.lead = lead at hnone hlead ⊢
    cases hlead with
    | nil => exact hfound
    | precision hword hgap =>
      have hidle := partsFrom_idle_append (fun g hg => Lexeme.isIdle_of_isTrivial (hgap g hg))
        (d.layout.lexemes ++ rest)
      rw [List.cons_append] at hnone ⊢
      rw [partsFrom_loose_top rfl hnone, hidle, hfound]
      rfl

end Definition

/-! ## Scanning a text made of definitions -/

section Source

variable {definitions : List Definition} {tail : Blanks}

theorem textOf_map_mark (text : List Char) : textOf (text.map mark) = text := by
  induction text with
  | nil => rfl
  | cons c rest ih => exact congrArg (c :: ·) ih

theorem parts_blanks_append (blanks : Blanks) (rest : List Lexeme) :
    partsFrom 0 (blanks.1.map mark ++ rest)
      = (blanks.1.map mark).map .loose ++ partsFrom 0 rest := by
  refine partsFrom_idle_append (fun lexeme hlexeme => ?_) rest
  obtain ⟨c, hc, rfl⟩ := List.mem_map.1 hlexeme
  exact isIdle_mark_of_isBlank (List.all_eq_true.1 blanks.2 c hc)

theorem parts_source_nil (tail : Blanks) :
    parts (source [] tail) = (tail.1.map mark).map .loose := by
  have hread := lexemes_blanks_append tail []
  have hparts := parts_blanks_append tail []
  rw [partsFrom, List.append_nil, List.append_nil] at hparts
  rw [List.append_nil] at hread
  rw [parts, source, List.flatMap_nil, List.nil_append, hread]
  simpa [lexemes, cells, cellsFrom, Lexeme.ofCells] using hparts

/-- One definition: its blanks and its lead are left over, and it is a function. -/
theorem parts_source_cons {d : Definition} (hfree : d.layout.Free) :
    parts (source (d :: definitions) tail) = (d.before.1.map mark ++ d.lead).map .loose
      ++ .function d.layout.function :: parts (source definitions tail) := by
  rw [parts, lexemes_source_cons, parts_blanks_append, Definition.partsFrom_of_free hfree,
    List.map_append, List.append_assoc, parts]

theorem gaps_source_nil (tail : Blanks) : gaps (parts (source [] tail)) = [tail.1] := by
  obtain ⟨gap, more, hnil, hgaps⟩ := gaps_loose_append (tail.1.map mark) []
  obtain ⟨rfl, rfl⟩ := List.cons.inj hnil
  rw [List.append_nil, ← parts_source_nil, textOf_map_mark, List.append_nil] at hgaps
  exact hgaps

theorem gaps_source_cons {d : Definition} (hfree : d.layout.Free) :
    gaps (parts (source (d :: definitions) tail))
      = (d.before.1 ++ textOf d.lead) :: gaps (parts (source definitions tail)) := by
  obtain ⟨gap, more, hfunction, hgaps⟩ := gaps_loose_append (d.before.1.map mark ++ d.lead)
    (.function d.layout.function :: parts (source definitions tail))
  obtain ⟨rfl, rfl⟩ := List.cons.inj hfunction
  rw [parts_source_cons hfree, hgaps, textOf_append, textOf_map_mark, List.append_nil]

/-- What stands between functions is blanks and leads. -/
theorem gaps_source (hfree : ∀ d ∈ definitions, d.layout.Free) :
    gaps (parts (source definitions tail))
      = definitions.map (fun d => d.before.1 ++ textOf d.lead) ++ [tail.1] := by
  induction definitions with
  | nil => exact gaps_source_nil tail
  | cons d rest ih =>
    obtain ⟨hd, hrest⟩ := List.forall_mem_cons.1 hfree
    rw [gaps_source_cons hd, ih hrest]
    rfl

theorem functions_source (hfree : ∀ d ∈ definitions, d.layout.Free) :
    (parts (source definitions tail)).filterMap Part.function?
      = definitions.map (·.layout.function) := by
  have hloose (loose : List Lexeme) :
      (loose.map Part.loose).filterMap Part.function? = [] := by
    simp [Part.function?]
  induction definitions with
  | nil => rw [parts_source_nil, hloose]; rfl
  | cons d rest ih =>
    obtain ⟨hd, hrest⟩ := List.forall_mem_cons.1 hfree
    rw [parts_source_cons hd, List.filterMap_append, hloose, List.nil_append, List.map_cons,
      ← ih hrest]
    rfl

/-- **Where only blanks are left over, every definition is clean.** At the first one that is not,
its first word is left over. -/
theorem clean_of_blank_gaps
    (h : ∀ gap ∈ gaps (parts (source definitions tail)), gap.all Text.isBlank = true) :
    ∀ d ∈ definitions, d.Clean := by
  induction definitions with
  | nil => simp
  | cons d rest ih =>
    have hclean : d.Clean := by
      by_contra hnot
      obtain ⟨c, chars, more, hword, hstart⟩ := d.exists_word (lexemes (source rest tail))
      have hnone := Definition.function?_of_not_clean hnot (lexemes (source rest tail))
      rw [hword] at hnone
      have hparts : parts (source (d :: rest) tail)
          = (d.before.1.map mark ++ [Lexeme.word (c :: chars)]).map .loose ++ partsFrom 0 more := by
        rw [parts, lexemes_source_cons, hword, parts_blanks_append, partsFrom_loose_top rfl hnone,
          List.map_append, List.append_assoc]
        rfl
      obtain ⟨gap, gaps', -, hgaps⟩ := gaps_loose_append
        (d.before.1.map mark ++ [.word (c :: chars)]) (partsFrom 0 more)
      rw [hparts, hgaps] at h
      have hblank : Text.isBlank c = true := by
        refine List.all_eq_true.1 (h _ List.mem_cons_self) c ?_
        simp [textOf, Lexeme.chars]
      have hword := isWordChar_eq_false_of_isBlank hblank
      rw [Text.isWordChar_of_isWordStart hstart] at hword
      cases hword
    refine List.forall_mem_cons.2 ⟨hclean, ih fun gap hgap => h gap ?_⟩
    rw [gaps_source_cons hclean.2]
    exact List.mem_cons_of_mem _ hgap

/-- Nothing is left of a gap exactly if it is blank. -/
theorem trim_eq_nil_iff (text : List Char) :
    Text.trim text = [] ↔ text.all Text.isBlank = true := by
  obtain ⟨front, back, hfront, hback, htext⟩ := Text.exists_eq_append_trim text
  constructor
  · intro hnil
    rw [hnil, List.nil_append] at htext
    rw [htext, List.all_eq_true]
    exact List.forall_mem_append.2 ⟨hfront, hback⟩
  · intro hblank
    have hstart : Text.trimStart text = [] :=
      List.dropWhile_eq_nil_iff.2 (List.all_eq_true.1 hblank)
    rw [Text.trim, hstart]
    rfl

theorem preamble_eq_empty_iff (text : String) : (scan text).preamble = ""
    ↔ ∀ gap ∈ gaps (parts text.toList), gap.all Text.isBlank = true := by
  have hjoin (pieces : List (List Char)) (hpieces : ∀ piece ∈ pieces, piece ≠ []) :
      ['\n'].intercalate pieces = [] ↔ pieces = [] := by
    rcases pieces with _ | ⟨piece, _ | ⟨next, more⟩⟩
    · simp
    · simpa using hpieces
    · simp [List.intercalate]
  simp only [scan, String.ofList_eq_empty_iff]
  rw [hjoin _ (by simp), List.filter_eq_nil_iff]
  simp [trim_eq_nil_iff]

theorem trim_blanks_append (blanks : Blanks) (text : List Char) :
    Text.trim (blanks.1 ++ text) = Text.trim text := by
  rw [Text.trim, Text.trimStart, List.dropWhile_append_of_pos (List.all_eq_true.1 blanks.2)]
  rfl

theorem preamble_source (hfree : ∀ d ∈ definitions, d.layout.Free) :
    (scan (String.ofList (source definitions tail))).preamble
      = "\n".intercalate ((definitions.map Definition.leadText).filter (· ≠ "")) := by
  have htail : Text.trimmed (String.ofList tail.1) = "" := by
    rw [Text.trimmed, String.toList_ofList, (trim_eq_nil_iff _).2 tail.2]
  have hlead : (definitions.map fun d => d.before.1 ++ textOf d.lead).map
      (fun gap => Text.trimmed (String.ofList gap)) = definitions.map Definition.leadText := by
    rw [List.map_map]
    refine List.map_congr_left fun d _ => ?_
    simp only [Function.comp_apply, Definition.leadText, Text.trimmed, String.toList_ofList,
      trim_blanks_append]
  rw [preamble_eq, String.toList_ofList, gaps_source hfree, List.map_map, List.map_append,
    List.filter_append]
  simp only [Function.comp_def, hlead, List.map_cons, List.map_nil, htail]
  simp

end Source

/-- **A text made of definitions.** Where nothing is reserved there is one function for each
definition, from its type on, and the preamble is what stands before the types, one to a line. The
preamble is empty exactly if no definition has a precision word, a reserved type or a reserved
name. -/
theorem scan_definitions (definitions : List Definition) (tail : Blanks) :
    let found := scan (String.ofList (source definitions tail))
    ((∀ d ∈ definitions, d.layout.Free) →
      found.functions.map (·.function) = definitions.map (·.layout.function) ∧
      found.preamble = "\n".intercalate ((definitions.map Definition.leadText).filter (· ≠ ""))) ∧
    (found.preamble = "" ↔ ∀ d ∈ definitions, d.Clean) := by
  intro found
  refine ⟨fun hfree => ⟨?_, preamble_source hfree⟩, fun hempty => ?_, fun hclean => ?_⟩
  · refine (functionsOf_eq _).trans ?_
    rw [String.toList_ofList]
    exact functions_source hfree
  · rw [preamble_eq_empty_iff, String.toList_ofList] at hempty
    exact clean_of_blank_gaps hempty
  · have hgaps := @gaps_source definitions tail fun d hd => (hclean d hd).2
    rw [preamble_eq_empty_iff, String.toList_ofList, hgaps]
    refine List.forall_mem_append.2 ⟨fun gap hgap => ?_, by simpa using tail.2⟩
    obtain ⟨d, hd, rfl⟩ := List.mem_map.1 hgap
    rw [(hclean d hd).1]
    simpa [textOf] using d.before.2

/-- A precision word before a definition as short as can be. -/
def preciseDefinition : Definition where
  before := ⟨[], rfl⟩
  lead := .word "highp".toList :: lexemes [' ']
  layout := ⟨.word "float".toList, lexemes [' '], .word "f".toList, [], lexemes "()".toList,
    lexemes [' '], lexemes "\x7b \x7d".toList⟩
  isLead := .precision (by decide) (by decide +kernel)
  written := by constructor <;> decide +kernel
  reads := by decide +kernel

/-- The function is found, and its precision word is left over. -/
theorem scan_definitions_precise :
    preciseDefinition.layout.Free ∧
      (scan "highp float f() \x7b \x7d").functions.map (·.function)
        = [⟨"float", "f", [], "float f() \x7b \x7d"⟩] ∧
      (scan "highp float f() \x7b \x7d").preamble = "highp" := by
  have hfree : preciseDefinition.layout.Free := ⟨by decide +kernel, by decide +kernel⟩
  have hsource : String.ofList (source [preciseDefinition] ⟨[], rfl⟩)
      = "highp float f() \x7b \x7d" := by decide +kernel
  have hlead : preciseDefinition.leadText = "highp" := by decide +kernel
  have hfunction : preciseDefinition.layout.function
      = ⟨"float", "f", [], "float f() \x7b \x7d"⟩ := by decide +kernel
  obtain ⟨hfunctions, hpreamble⟩ :=
    (scan_definitions [preciseDefinition] ⟨[], rfl⟩).1 (by simpa using hfree)
  rw [hsource] at hfunctions hpreamble
  refine ⟨hfree, ?_, ?_⟩
  · rw [hfunctions]
    simp [hfunction]
  · rw [hpreamble]
    simp [hlead]

/-- **A precision word is hoisted out of a text that is one definition.** -/
theorem exists_precision_in_preamble : ∃ d : Definition, d.layout.Free ∧
    String.ofList (source [d] ⟨[], rfl⟩) = "highp float f() \x7b \x7d" ∧
    (scan "highp float f() \x7b \x7d").preamble = "highp" :=
  ⟨preciseDefinition, ⟨by decide +kernel, by decide +kernel⟩, by decide +kernel, by decide +kernel⟩

end ShaderGraph.Glsl
