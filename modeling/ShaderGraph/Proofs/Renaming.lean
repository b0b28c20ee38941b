import ShaderGraph.Dict
import ShaderGraph.Proofs.Stretches
import Mathlib.Data.List.Forall2

/-!
# Renaming identifiers

A text is cut at the identifiers of its code, and renaming puts other identifiers in their places.
What comes out is cut in the same places again, although every character behind the first new
identifier may have moved: the machine that tells code from comments and strings takes no notice of
which word of the code it passes (`reads_of_alike`), for a word character leaves it inside the code
and tells the character before it no more than that something follows which opens no comment.

So renaming is exact: it maps the sequence of identifiers and leaves all text around them alone, and
renaming twice is renaming once by what the two make together.
-/

namespace ShaderGraph.Glsl

/-! ## Words for words -/

/-- Of the next character matters whether there is one and whether it is a slash or a star. -/
theorem step_congr_ahead (state : State) (c : Char) {x y : Char} (hx : x ≠ '/' ∧ x ≠ '*')
    (hy : y ≠ '/' ∧ y ≠ '*') : state.step c (some x) = state.step c (some y) := by
  rcases state with ⟨zone⟩ | ⟨zone⟩
  · cases zone <;> simp [State.step, hx, hy]
  · rfl

theorem ne_of_isWordChar {c : Char} (h : Text.isWordChar c = true) :
    c ≠ '/' ∧ c ≠ '*' ∧ c ≠ '"' ∧ c ≠ '\n' := by
  refine ⟨?_, ?_, ?_, ?_⟩ <;>
  · rintro rfl
    cases h

/-- Inside the code, word characters are code and lead nowhere else. -/
theorem cellsFrom_word {chars : List Char} (h : ∀ c ∈ chars, Text.isWordChar c = true)
    (rest : List Char) : cellsFrom (.inside .code) (chars ++ rest)
      = chars.map (⟨·, true⟩) ++ cellsFrom (.inside .code) rest := by
  induction chars with
  | nil => rfl
  | cons c tail ih =>
    obtain ⟨hc, htail⟩ := List.forall_mem_cons.1 h
    obtain ⟨hslash, -, hquote, -⟩ := ne_of_isWordChar hc
    have hstep : (State.inside .code).step c (tail ++ rest).head? = (true, .inside .code) := by
      simp [State.step, hslash, hquote]
    rw [List.cons_append, cellsFrom, hstep, ih htail]
    rfl

/-- From the state on, the text of the lexemes is read as these lexemes. -/
def Reads (state : State) (lexemes : List Lexeme) : Prop :=
  cellsFrom state (textOf lexemes) = lexemes.flatMap Lexeme.cells

theorem wellFormed_lexemes (text : List Char) : Lexeme.WellFormed (lexemes text) :=
  Lexeme.wellFormed_ofCells _

theorem reads_lexemes (text : List Char) :
    Reads (.inside .code) (lexemes text) ∧ textOf (lexemes text) = text := by
  have htext : textOf (lexemes text) = text := by
    rw [← map_char_flatMap_cells, lexemes, Lexeme.flatMap_cells_ofCells, cells,
      map_char_cellsFrom]
  refine ⟨?_, htext⟩
  rw [Reads, htext, lexemes, Lexeme.flatMap_cells_ofCells, cells]

/-- The same lexeme, or two words. -/
inductive Lexeme.Alike : Lexeme → Lexeme → Prop where
  | word {chars chars' : List Char} (h : (Lexeme.word chars').Proper) :
      Alike (.word chars) (.word chars')
  | other (cell : Cell) : Alike (.other cell) (.other cell)

/-- A character before alike lexemes sees no difference. -/
theorem step_head?_textOf {lexemes lexemes' : List Lexeme}
    (h : List.Forall₂ Lexeme.Alike lexemes lexemes') (hproper : ∀ l ∈ lexemes, l.Proper)
    (state : State) (c : Char) :
    state.step c (textOf lexemes').head? = state.step c (textOf lexemes).head? := by
  cases h with
  | nil => rfl
  | cons hfirst hrest =>
    cases hfirst with
    | other cell => rfl
    | @word chars chars' hword' =>
      obtain ⟨hne, hchars⟩ : (Lexeme.word chars).Proper := hproper _ List.mem_cons_self
      obtain ⟨x, tail, rfl⟩ := List.exists_cons_of_ne_nil hne
      obtain ⟨y, tail', rfl⟩ := List.exists_cons_of_ne_nil hword'.1
      obtain ⟨hx, hx', -⟩ := ne_of_isWordChar (hchars x List.mem_cons_self)
      obtain ⟨hy, hy', -⟩ := ne_of_isWordChar (hword'.2 y List.mem_cons_self)
      exact step_congr_ahead state c ⟨hy, hy'⟩ ⟨hx, hx'⟩

/-- **The machine takes no notice of which words it passes.** -/
theorem reads_of_alike {lexemes lexemes' : List Lexeme}
    (h : List.Forall₂ Lexeme.Alike lexemes lexemes') (hproper : ∀ l ∈ lexemes, l.Proper)
    {state : State} (hreads : Reads state lexemes) : Reads state lexemes' := by
  induction h generalizing state with
  | nil => rfl
  | @cons first first' rest rest' hfirst hrest ih =>
    obtain ⟨hproperFirst, hproperRest⟩ := List.forall_mem_cons.1 hproper
    rw [Reads, textOf, List.flatMap_cons, List.flatMap_cons] at hreads ⊢
    cases hfirst with
    | other cell =>
      rw [Lexeme.chars, List.singleton_append, cellsFrom] at hreads ⊢
      obtain ⟨hcell, htail⟩ := List.cons.inj hreads
      have hstep := step_head?_textOf hrest hproperRest state cell.char
      rw [textOf, textOf] at hstep
      rw [hstep, hcell]
      exact congrArg _ (ih hproperRest htail)
    | @word chars chars' hword' =>
      obtain ⟨hne, hchars⟩ := hproperFirst
      -- the word is code, so it starts inside the code and ends there
      have hstate : state = .inside .code := by
        obtain ⟨c, tail, rfl⟩ := List.exists_cons_of_ne_nil hne
        rw [Lexeme.chars, List.cons_append, cellsFrom] at hreads
        refine eq_code_of_step (congrArg Cell.isCode (List.cons.inj hreads).1) ?_
        exact (ne_of_isWordChar (hchars c List.mem_cons_self)).2.2.2
      subst hstate
      rw [Lexeme.chars, cellsFrom_word hchars] at hreads
      rw [Lexeme.chars, cellsFrom_word hword'.2]
      exact congrArg _ (ih hproperRest (List.append_cancel_left hreads))

/-- Alike lexemes are well formed alike. -/
theorem Lexeme.WellFormed.of_alike {lexemes lexemes' : List Lexeme} (h : WellFormed lexemes)
    (halike : List.Forall₂ Alike lexemes lexemes') : WellFormed lexemes' := by
  induction halike with
  | nil => exact .nil
  | @cons first first' rest rest' hfirst hrest ih =>
    obtain ⟨hproper, -⟩ := List.forall_mem_cons.1 h.proper
    have hih := ih (h.of_infix (List.suffix_cons first rest).isInfix)
    cases hfirst with
    | other cell => exact hih.consOther hproper
    | @word chars chars' hword' =>
      refine ⟨List.forall_mem_cons.2 ⟨hword', hih.proper⟩, ?_⟩
      cases hrest with
      | nil => exact List.isChain_singleton _
      | cons hnext _ =>
        refine List.isChain_cons_cons.2 ⟨?_, hih.parted⟩
        cases hnext with
        | other => trivial
        | word => exact (List.isChain_cons_cons.1 h.parted).1

/-- **Words in the places of words are read as such.** -/
theorem lexemes_textOf_of_alike {text : List Char} {lexemes' : List Lexeme}
    (h : List.Forall₂ Lexeme.Alike (lexemes text) lexemes') :
    lexemes (textOf lexemes') = lexemes' := by
  have hformed := wellFormed_lexemes text
  have hreads : Reads (.inside .code) lexemes' :=
    reads_of_alike h hformed.proper (reads_lexemes text).1
  rw [lexemes, cells, hreads]
  exact Lexeme.ofCells_flatMap_cells (hformed.of_alike h)

/-! ## The text around identifiers -/

/-- The text before, between and behind the identifiers among lexemes. -/
def outside : List Lexeme → List (List Char)
  | [] => [[]]
  | lexeme :: rest =>
    match lexeme.identifier?, outside rest with
    | some _, gaps => [] :: gaps
    | none, gap :: gaps => (lexeme.chars ++ gap) :: gaps
    | none, [] => [lexeme.chars]

/-- The text before, between and behind the identifiers in the code of a text. -/
def textsBetween (text : String) : List String :=
  (outside (lexemes text.toList)).map String.ofList

/-- Stretches of text with words between them, of which there is one less. -/
def weave : List String → List String → String
  | gap :: gaps, word :: words => gap ++ word ++ weave gaps words
  | gap :: _, [] => gap
  | [], _ => ""

theorem length_outside (lexemes : List Lexeme) :
    (outside lexemes).length = (lexemes.filterMap Lexeme.identifier?).length + 1 := by
  induction lexemes with
  | nil => rfl
  | cons lexeme rest ih =>
    cases hid : lexeme.identifier? with
    | some name => simp [outside, hid, ih]
    | none =>
      obtain ⟨gap, gaps, hrest⟩ : ∃ gap gaps, outside rest = gap :: gaps :=
        List.exists_cons_of_length_eq_add_one ih
      rw [hrest] at ih
      simp [outside, hid, hrest, ← ih]

/-- Text in front of woven text belongs to the first stretch. -/
theorem append_weave (front gap : String) (gaps words : List String) :
    front ++ weave (gap :: gaps) words = weave ((front ++ gap) :: gaps) words := by
  cases words <;> simp [weave, String.append_assoc]

/-- Lexemes with something else in the places of the identifiers. -/
theorem weave_outside (f : List Char → String) (lexemes : List Lexeme) :
    weave ((outside lexemes).map String.ofList)
        ((lexemes.filterMap Lexeme.identifier?).map f)
      = String.ofList (lexemes.flatMap fun lexeme =>
          match lexeme.identifier? with
          | some name => (f name).toList
          | none => lexeme.chars) := by
  induction lexemes with
  | nil => rfl
  | cons lexeme rest ih =>
    cases hid : lexeme.identifier? with
    | some name => simp [outside, hid, weave, ih, String.ofList_append]
    | none =>
      obtain ⟨gap, gaps, hrest⟩ : ∃ gap gaps, outside rest = gap :: gaps :=
        List.exists_cons_of_length_eq_add_one (length_outside rest)
      rw [hrest, List.map_cons] at ih
      simp [outside, hid, hrest, ← append_weave, ih, String.ofList_append]

/-- The identifier that a lexeme is makes up its characters. -/
theorem Lexeme.chars_of_identifier? {lexeme : Lexeme} {name : List Char}
    (h : lexeme.identifier? = some name) : lexeme.chars = name := by
  rcases lexeme with chars | cell
  · by_cases hstarts : Text.startsIdentifier chars
    · simpa [identifier?, hstarts, Lexeme.chars] using h
    · simp [identifier?, hstarts] at h
  · cases h

theorem startsIdentifier_of_isIdentifier {name : List Char}
    (h : Text.isIdentifier name = true) : Text.startsIdentifier name = true :=
  (Bool.and_eq_true_iff.1 h).1

/-- An identifier is a proper word. -/
theorem proper_of_isIdentifier {name : List Char} (h : Text.isIdentifier name = true) :
    (Lexeme.word name).Proper := by
  refine ⟨?_, List.all_eq_true.1 (Bool.and_eq_true_iff.1 h).2⟩
  rintro rfl
  cases h

theorem isIdentifier_of_identifier? {lexeme : Lexeme} {name : List Char}
    (hproper : lexeme.Proper) (h : lexeme.identifier? = some name) :
    Text.isIdentifier (String.ofList name).toList = true := by
  rw [String.toList_ofList]
  rcases lexeme with chars | cell
  · obtain rfl : chars = name := Lexeme.chars_of_identifier? h
    refine Bool.and_eq_true_iff.2 ⟨?_, List.all_eq_true.2 hproper.2⟩
    by_contra hnot
    simp [Lexeme.identifier?, hnot] at h
  · cases h

/-- **A text is its identifiers and the text around them.** -/
theorem weave_textsBetween (text : String) :
    weave (textsBetween text) (identifiers text) = text := by
  rw [textsBetween, identifiers, weave_outside]
  have hchars : ∀ lexeme : Lexeme, (match lexeme.identifier? with
      | some name => (String.ofList name).toList
      | none => lexeme.chars) = lexeme.chars := by
    intro lexeme
    cases hid : lexeme.identifier? with
    | some name => exact String.toList_ofList.trans (Lexeme.chars_of_identifier? hid).symm
    | none => rfl
  simp only [hchars]
  exact (congrArg String.ofList (reads_lexemes text.toList).2).trans String.ofList_toList

/-! ## Renaming -/

namespace Renaming

/-- Whether all new names are identifiers. -/
def ToIdentifiers (names : Renaming) : Prop :=
  ∀ entry ∈ names, Text.isIdentifier entry.2.toList = true

/-- First the one renaming, then the other. -/
def andThen (names more : Renaming) : Renaming :=
  more ++ names.map fun entry => (entry.1, more.apply entry.2)

/-- What becomes of a lexeme, as a lexeme. -/
def onLexeme (names : Renaming) (lexeme : Lexeme) : Lexeme :=
  match lexeme.identifier? with
  | some name => .word (names.apply (String.ofList name)).toList
  | none => lexeme

theorem chars_onLexeme (names : Renaming) (lexeme : Lexeme) :
    (names.onLexeme lexeme).chars = names.applyTo lexeme := by
  cases hid : lexeme.identifier? <;> simp [onLexeme, applyTo, hid, Lexeme.chars]

/-- **The last entry for a name counts.** -/
theorem apply_concat (names : Renaming) (entry : String × String) (name : String) :
    apply (names ++ [entry]) name = if name = entry.1 then entry.2 else names.apply name := by
  rw [apply, List.reverse_append, List.reverse_singleton, List.singleton_append, lookup_cons, apply]
  split <;> rfl

theorem apply_andThen (names more : Renaming) (name : String) :
    (names.andThen more).apply name = more.apply (names.apply name) := by
  induction names using List.reverseRecOn with
  | nil => simp [andThen, apply]
  | append_singleton names entry ih =>
    have hconcat : andThen (names ++ [entry]) more
        = andThen names more ++ [(entry.1, more.apply entry.2)] := by
      simp [andThen]
    rw [hconcat, apply_concat, apply_concat, ih]
    split <;> rfl

/-- A name that has an entry becomes what one of its entries says. -/
theorem apply_mem {names : Renaming} {name : String} (h : name ∈ names.map (·.1)) :
    (name, names.apply name) ∈ names := by
  induction names using List.reverseRecOn with
  | nil => cases h
  | append_singleton names entry ih =>
    rw [apply_concat]
    by_cases heq : name = entry.1
    · subst heq
      rw [if_pos rfl]
      exact List.mem_append_right _ List.mem_cons_self
    · rw [if_neg heq]
      rw [List.map_append, List.mem_append] at h
      exact List.mem_append_left _
        (ih (h.resolve_right fun hlast => heq (List.mem_singleton.1 hlast)))

theorem apply_of_not_mem {names : Renaming} {name : String} (h : name ∉ names.map (·.1)) :
    names.apply name = name := by
  induction names using List.reverseRecOn with
  | nil => rfl
  | append_singleton names entry ih =>
    rw [List.map_append, List.mem_append, not_or] at h
    rw [apply_concat, if_neg fun heq => h.2 (List.mem_singleton.2 heq), ih h.1]

/-- A name is kept, or becomes one of the new names. -/
theorem apply_cases (names : Renaming) (name : String) :
    names.apply name = name ∨ ∃ entry ∈ names, names.apply name = entry.2 := by
  by_cases h : name ∈ names.map (·.1)
  · exact .inr ⟨_, apply_mem h, rfl⟩
  · exact .inl (apply_of_not_mem h)

theorem isIdentifier_apply {names : Renaming} (hnames : names.ToIdentifiers) {name : String}
    (h : Text.isIdentifier name.toList = true) :
    Text.isIdentifier (names.apply name).toList = true := by
  rcases names.apply_cases name with hkept | ⟨entry, hmem, hentry⟩
  · rwa [hkept]
  · rw [hentry]
    exact hnames entry hmem

theorem ToIdentifiers.andThen {names more : Renaming} (hnames : names.ToIdentifiers)
    (hmore : more.ToIdentifiers) : (names.andThen more).ToIdentifiers := by
  intro entry hmem
  rcases List.mem_append.1 hmem with hmem | hmem
  · exact hmore entry hmem
  · obtain ⟨old, hold, rfl⟩ := List.mem_map.1 hmem
    exact isIdentifier_apply hmore (hnames old hold)

/-- Of a lexeme that is an identifier, and of no other, renaming makes another word. -/
theorem identifier?_onLexeme {names : Renaming} (hnames : names.ToIdentifiers) {lexeme : Lexeme}
    (hproper : lexeme.Proper) : (names.onLexeme lexeme).identifier?
      = lexeme.identifier?.map fun name => (names.apply (String.ofList name)).toList := by
  cases hid : lexeme.identifier? with
  | none => rw [onLexeme, hid]; exact hid
  | some name =>
    have hnew := isIdentifier_apply hnames (isIdentifier_of_identifier? hproper hid)
    rw [onLexeme, hid]
    simp [Lexeme.identifier?, startsIdentifier_of_isIdentifier hnew]

theorem alike_onLexeme {names : Renaming} (hnames : names.ToIdentifiers) {lexeme : Lexeme}
    (hproper : lexeme.Proper) : lexeme.Alike (names.onLexeme lexeme) := by
  cases hid : lexeme.identifier? with
  | none =>
    rw [onLexeme, hid]
    cases lexeme with
    | word chars => exact .word hproper
    | other cell => exact .other cell
  | some name =>
    have hnew := isIdentifier_apply hnames (isIdentifier_of_identifier? hproper hid)
    rw [onLexeme, hid]
    cases lexeme with
    | word chars => exact .word (proper_of_isIdentifier hnew)
    | other cell => cases hid

/-- Renaming leaves the text around the identifiers alone. -/
theorem outside_map_onLexeme {names : Renaming} (hnames : names.ToIdentifiers)
    {lexemes : List Lexeme} (hproper : ∀ lexeme ∈ lexemes, lexeme.Proper) :
    outside (lexemes.map names.onLexeme) = outside lexemes := by
  induction lexemes with
  | nil => rfl
  | cons lexeme rest ih =>
    obtain ⟨hfirst, hrest⟩ := List.forall_mem_cons.1 hproper
    have hnew := identifier?_onLexeme hnames hfirst
    rw [List.map_cons, outside, outside, hnew, ih hrest]
    cases hid : lexeme.identifier? with
    | some name => rfl
    | none =>
      have hsame : names.onLexeme lexeme = lexeme := by rw [onLexeme, hid]
      rw [hsame]
      rfl

/-- A renaming without entries changes no lexeme, as the text is then left as it is. -/
theorem toList_rename (names : Renaming) (text : String) :
    (names.rename text).toList = textOf ((lexemes text.toList).map names.onLexeme) := by
  rw [textOf, List.flatMap_map]
  simp only [chars_onLexeme]
  cases names with
  | cons entry more => exact String.toList_ofList
  | nil =>
    have hkept : ∀ lexeme, applyTo [] lexeme = lexeme.chars := by
      intro lexeme
      cases hid : lexeme.identifier? with
      | none => rw [applyTo, hid]
      | some name =>
        rw [applyTo, hid, Lexeme.chars_of_identifier? hid]
        exact String.toList_ofList
    simp only [hkept]
    exact (reads_lexemes text.toList).2.symm

/-- **A renamed text is read as the renamed lexemes.** -/
theorem lexemes_rename {names : Renaming} (hnames : names.ToIdentifiers) (text : String) :
    lexemes (names.rename text).toList = (lexemes text.toList).map names.onLexeme := by
  have halike : List.Forall₂ Lexeme.Alike (lexemes text.toList)
      ((lexemes text.toList).map names.onLexeme) := by
    refine List.forall₂_map_right_iff.2 (List.forall₂_same.2 fun lexeme hmem => ?_)
    exact alike_onLexeme hnames ((wellFormed_lexemes text.toList).proper lexeme hmem)
  rw [toList_rename, lexemes_textOf_of_alike halike]

theorem identifiers_rename {names : Renaming} (hnames : names.ToIdentifiers) (text : String) :
    identifiers (names.rename text) = (identifiers text).map names.apply := by
  have hmap : (lexemes text.toList).filterMap (Lexeme.identifier? ∘ names.onLexeme)
      = (lexemes text.toList).filterMap fun lexeme =>
          lexeme.identifier?.map fun name => (names.apply (String.ofList name)).toList :=
    List.filterMap_congr fun lexeme hmem =>
      identifier?_onLexeme hnames ((wellFormed_lexemes text.toList).proper lexeme hmem)
  rw [identifiers, lexemes_rename hnames, List.filterMap_map, hmap, ← List.map_filterMap]
  simp [identifiers, Function.comp_def]

theorem textsBetween_rename {names : Renaming} (hnames : names.ToIdentifiers) (text : String) :
    textsBetween (names.rename text) = textsBetween text := by
  rw [textsBetween, lexemes_rename hnames,
    outside_map_onLexeme hnames (wellFormed_lexemes text.toList).proper]
  rfl

/-- What a renaming makes of a text depends on what it makes of names. -/
theorem rename_eq_weave {names : Renaming} (hnames : names.ToIdentifiers) (text : String) :
    names.rename text = weave (textsBetween text) ((identifiers text).map names.apply) := by
  rw [← textsBetween_rename hnames, ← identifiers_rename hnames, weave_textsBetween]

/-- **Renaming is exact.** Whatever the text, its identifiers are mapped in order and the text
before, between and behind them is kept, both as written and as read again. -/
theorem rename_exact (names : Renaming) (hnames : names.ToIdentifiers) (text : String) :
    identifiers (names.rename text) = (identifiers text).map names.apply
      ∧ textsBetween (names.rename text) = textsBetween text
      ∧ (textsBetween text).length = (identifiers text).length + 1
      ∧ text = weave (textsBetween text) (identifiers text)
      ∧ names.rename text = weave (textsBetween text) ((identifiers text).map names.apply)
      ∧ (∀ name, name ∈ identifiers (names.rename text)
          ↔ ∃ old ∈ identifiers text, names.apply old = name)
      ∧ ∀ more : Renaming, more.ToIdentifiers →
          more.rename (names.rename text) = (names.andThen more).rename text
            ∧ ∀ name, (names.andThen more).apply name = more.apply (names.apply name) := by
  refine ⟨identifiers_rename hnames text, textsBetween_rename hnames text, ?_,
    (weave_textsBetween text).symm, rename_eq_weave hnames text, ?_, ?_⟩
  · simp [textsBetween, identifiers, length_outside]
  · intro name
    rw [identifiers_rename hnames, List.mem_map]
  · intro more hmore
    refine ⟨?_, apply_andThen names more⟩
    rw [rename_eq_weave hmore, rename_eq_weave (hnames.andThen hmore), textsBetween_rename hnames,
      identifiers_rename hnames, List.map_map]
    exact congrArg _ (List.map_congr_left fun name _ => (apply_andThen names more name).symm)

/-- Of two entries for a name the last counts. A word that starts with a digit is no identifier, and
neither are the words of a comment and of a string that is never closed. -/
theorem rename_exact_unterminated :
    let names : Renaming := [("x", "y"), ("x", "z2")]
    let more : Renaming := [("z2", "w")]
    names.ToIdentifiers ∧ more.ToIdentifiers
      ∧ names.rename "x+1x/*x*/é\"x" = "z2+1x/*x*/é\"x"
      ∧ more.rename (names.rename "x+1x/*x*/é\"x")
        = (names.andThen more).rename "x+1x/*x*/é\"x" := by
  intro names more
  have hnames : names.ToIdentifiers := by
    unfold ToIdentifiers
    decide
  have hmore : more.ToIdentifiers := by
    unfold ToIdentifiers
    decide
  obtain ⟨-, -, -, -, hwoven, -, htwice⟩ := rename_exact names hnames "x+1x/*x*/é\"x"
  refine ⟨hnames, hmore, hwoven.trans ?_, (htwice more hmore).1⟩
  decide +kernel

end Renaming

end ShaderGraph.Glsl
