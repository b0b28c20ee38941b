import ShaderGraph.Proofs.Stretches
import ShaderGraph.Text.Blank

/-!
# Seams

The identifiers of two texts joined by a character are those of the one and then those of the other,
if the character ends words and the first text is closed by it: behind the text the character is
code and leaves the machine inside the code (`names_append_cons`). A line feed closes what ends in
the code or in a line comment; other characters close only what ends in the code.

All else follows from this: lines joined by line feeds keep their identifiers. A blank parts
identifiers also inside comments and strings (`namesFrom_append_cons`), so a text that is trimmed
keeps them, closed or not.
-/

namespace ShaderGraph.Glsl

/-! ## What follows a text -/

/-- The machine waits for a second character only if there is one. -/
theorem isSome_of_step_eq_passing {state : State} {c : Char} {ahead : Option Char} {zone : Zone}
    (h : (state.step c ahead).2 = .passing zone) : ahead.isSome = true := by
  rcases state with ⟨_ | _ | _ | _⟩ | ⟨_⟩ <;> simp only [State.step] at h <;> grind

/-- Behind a whole text the machine waits for nothing. -/
theorem exists_stateAfter_eq_inside {state : State} {text : List Char}
    (h : ∀ zone, state = .passing zone → text ≠ []) :
    ∃ zone, stateAfter state text = .inside zone := by
  induction text generalizing state with
  | nil =>
    cases state with
    | inside zone => exact ⟨zone, rfl⟩
    | passing zone => exact absurd rfl (h zone rfl)
  | cons c rest ih =>
    refine ih fun zone hzone hnil => ?_
    have hahead := isSome_of_step_eq_passing hzone
    rw [hnil] at hahead
    cases hahead

/-- A character that is neither a slash nor a star changes the step before it only behind a
backslash that a string ends with. -/
theorem step_some_cases {state : State} {c d : Char} (hslash : c ≠ '/') (hstar : c ≠ '*') :
    state.step d (some c) = state.step d none ∨
      state.step d none = (false, .inside .string) ∧
        state.step d (some c) = (false, .passing .string) := by
  rcases state with ⟨_ | _ | _ | _⟩ | ⟨_⟩
  · left
    simp [State.step, hslash, hstar]
  · by_cases hback : d = '\\'
    · right
      simp [State.step, hback]
    · left
      simp [State.step, hback]
  · exact Or.inl rfl
  · left
    simp [State.step, hslash]
  · exact Or.inl rfl

/-- A character that is neither a slash nor a star changes nothing before it, but the machine waits
for it if the text ends inside a string. -/
theorem before_cases {c : Char} (hslash : c ≠ '/') (hstar : c ≠ '*') (state : State)
    (text : List Char) :
    cellsBefore (some c) state text = cellsFrom state text ∧
      (stateBefore (some c) state text = stateAfter state text ∨
        stateAfter state text = .inside .string ∧
          stateBefore (some c) state text = .passing .string) := by
  induction text generalizing state with
  | nil => exact ⟨rfl, Or.inl rfl⟩
  | cons d rest ih =>
    rcases rest with _ | ⟨e, rest⟩
    · simp only [cellsBefore, cellsFrom, stateBefore, stateAfter, List.head?_nil, Option.none_or]
      rcases @step_some_cases state c d hslash hstar with hstep | ⟨hnone, hsome⟩
      · rw [hstep]
        exact ⟨rfl, Or.inl rfl⟩
      · rw [hnone, hsome]
        exact ⟨rfl, Or.inr ⟨rfl, rfl⟩⟩
    · obtain ⟨hcells, hstate⟩ := ih (state.step d (some e)).2
      exact ⟨congrArg _ hcells, hstate⟩

theorem stateAfter_append (state : State) (x y : List Char) :
    stateAfter state (x ++ y) = stateAfter (stateBefore y.head? state x) y := by
  induction x generalizing state with
  | nil => rfl
  | cons c rest ih =>
    rw [List.cons_append, stateAfter, List.head?_append, ih]
    rfl

/-! ## Closed texts -/

/-- Whether a character of the code ends words and nothing else. -/
def isBreak (c : Char) : Bool := isSteady c && c != '"' && !Text.isWordChar c

/-- No blank belongs to a word. -/
theorem isWordChar_eq_false_of_isBlank {c : Char} (h : Text.isBlank c = true) :
    Text.isWordChar c = false := by
  rw [← Bool.not_eq_true]
  intro hword
  have hbounds := Text.toNat_of_isWordChar hword
  have hranges := List.any_eq_true.1 h
  simp only [Text.blankRanges, List.mem_cons, List.not_mem_nil, or_false, exists_eq_or_imp,
    exists_eq_left, Bool.and_eq_true, decide_eq_true_eq] at hranges
  omega

theorem isBreak_of_isBlank {c : Char} (h : Text.isBlank c = true) : isBreak c = true := by
  have hne : ∀ d, Text.isBlank d = false → c ≠ d := by
    rintro d hd rfl
    exact Bool.false_ne_true (hd.symm.trans h)
  have hsteady : c ≠ '/' ∧ c ≠ '*' ∧ c ≠ '\\' :=
    ⟨hne _ (by decide), hne _ (by decide), hne _ (by decide)⟩
  have hquote : c ≠ '"' := hne _ (by decide)
  simp [isBreak, isSteady, hsteady, hquote, isWordChar_eq_false_of_isBlank h]

/-- Behind the text the character is code, and what follows it starts in the code. -/
def ClosedBy (c : Char) (text : List Char) : Prop :=
  (stateAfter (.inside .code) text).step c none = (true, .inside .code)

instance (c : Char) (text : List Char) : Decidable (ClosedBy c text) :=
  inferInstanceAs (Decidable (_ = _))

/-- A line feed closes what is outside block comments and strings. -/
theorem closedBy_newline_iff {text : List Char} :
    ClosedBy '\n' text ↔ stateAfter (.inside .code) text = .inside .code ∨
      stateAfter (.inside .code) text = .inside .lineComment := by
  rw [ClosedBy]
  rcases stateAfter (.inside .code) text with ⟨_ | _ | _ | _⟩ | ⟨_⟩ <;> simp [State.step]

theorem closedBy_of_code {c : Char} (hc : isBreak c = true) {text : List Char}
    (h : stateAfter (.inside .code) text = .inside .code) : ClosedBy c text := by
  simp only [isBreak, isSteady, Bool.and_eq_true, bne_iff_ne] at hc
  simp [ClosedBy, h, State.step, hc]

theorem closedBy_nil {c : Char} (hc : isBreak c = true) : ClosedBy c [] := closedBy_of_code hc rfl

/-- A text without slashes and quotes is all code. -/
theorem cells_of_plain {text : List Char} (h : ∀ c ∈ text, c ≠ '/' ∧ c ≠ '"') :
    cells text = text.map (⟨·, true⟩) ∧
      stateAfter (.inside .code) text = .inside .code := by
  induction text with
  | nil => exact ⟨rfl, rfl⟩
  | cons c rest ih =>
    obtain ⟨⟨hslash, hquote⟩, hrest⟩ := List.forall_mem_cons.1 h
    obtain ⟨hcells, hstate⟩ := ih hrest
    have hstep : (State.inside .code).step c rest.head? = (true, .inside .code) := by
      simp [State.step, hslash, hquote]
    rw [cells, cellsFrom, stateAfter, hstep, List.map_cons]
    exact ⟨congrArg _ hcells, hstate⟩

section Closed

variable {c : Char} {x : List Char} (hc : isBreak c = true) (hx : ClosedBy c x)

include hc hx

/-- What stands before the character that closes it reads as it does alone. -/
theorem ClosedBy.before_eq : cellsBefore (some c) (.inside .code) x = cells x ∧
    stateBefore (some c) (.inside .code) x = stateAfter (.inside .code) x := by
  simp only [isBreak, isSteady, Bool.and_eq_true, bne_iff_ne] at hc
  obtain ⟨⟨⟨⟨hslash, hstar⟩, -⟩, hquote⟩, -⟩ := hc
  obtain ⟨hcells, hstate | ⟨hstring, -⟩⟩ := before_cases hslash hstar (.inside .code) x
  · exact ⟨hcells, hstate⟩
  · rw [ClosedBy, hstring] at hx
    simp [State.step, hquote] at hx

theorem ClosedBy.step_eq (ahead : Option Char) :
    (stateAfter (.inside .code) x).step c ahead = (true, .inside .code) := by
  simp only [isBreak, Bool.and_eq_true] at hc
  rw [step_eq_of_isSteady hc.1.1 _ ahead none]
  exact hx

/-- Behind a closed text the machine starts anew. -/
theorem cells_append_cons (y : List Char) :
    cells (x ++ c :: y) = cells x ++ ⟨c, true⟩ :: cells y := by
  obtain ⟨hcells, hstate⟩ := hx.before_eq hc
  rw [cells, cellsFrom_append, List.head?_cons, hcells, hstate, cellsFrom, hx.step_eq hc]
  rfl

theorem stateAfter_append_cons (y : List Char) :
    stateAfter (.inside .code) (x ++ c :: y) = stateAfter (.inside .code) y := by
  obtain ⟨-, hstate⟩ := hx.before_eq hc
  rw [stateAfter_append, List.head?_cons, hstate, stateAfter, hx.step_eq hc]

end Closed

/-! ## Identifiers of joined texts -/

/-- A cell that belongs to no word stands by itself, and words end at it. -/
theorem Lexeme.ofCells_append_cons {cell : Cell}
    (hcell : (cell.isCode && Text.isWordChar cell.char) = false) (x y : List Cell) :
    ofCells (x ++ cell :: y) = ofCells x ++ .other cell :: ofCells y := by
  have hword : ∀ (c : Char) (lexemes rest : List Lexeme),
      consWord c (lexemes ++ .other cell :: rest) = consWord c lexemes ++ .other cell :: rest := by
    intro c lexemes rest
    rcases lexemes with _ | ⟨_ | _, _⟩ <;> rfl
  induction x with
  | nil => simp [ofCells, hcell]
  | cons first x ih =>
    rw [List.cons_append, ofCells, ofCells, ih]
    split
    · exact hword _ _ _
    · rfl

/-- The identifiers in the code of a text. -/
def names (text : List Char) : List (List Char) := (lexemes text).filterMap Lexeme.identifier?

theorem identifiers_eq (text : String) :
    identifiers text = (names text.toList).map String.ofList := rfl

/-- Two texts joined at a break are cut up one by one, with the break between them. -/
theorem lexemes_append_cons {c : Char} {x : List Char} (hc : isBreak c = true) (hx : ClosedBy c x)
    (y : List Char) : lexemes (x ++ c :: y) = lexemes x ++ .other ⟨c, true⟩ :: lexemes y := by
  have hcell : (true && Text.isWordChar c) = false := by
    simp only [isBreak, Bool.and_eq_true, Bool.not_eq_true'] at hc
    exact hc.2
  rw [lexemes, cells_append_cons hc hx, Lexeme.ofCells_append_cons hcell]
  rfl

/-- **Identifiers of two texts joined at a break.** -/
theorem names_append_cons {c : Char} {x : List Char} (hc : isBreak c = true) (hx : ClosedBy c x)
    (y : List Char) : names (x ++ c :: y) = names x ++ names y := by
  rw [names, lexemes_append_cons hc hx, List.filterMap_append]
  rfl

/-- Characters of words are one word, and they are code. -/
theorem lexemes_of_isWordChar {text : List Char} (hne : text ≠ [])
    (h : ∀ c ∈ text, Text.isWordChar c = true) :
    lexemes text = [.word text] ∧ stateAfter (.inside .code) text = .inside .code := by
  have hplain : ∀ c ∈ text, c ≠ '/' ∧ c ≠ '"' := by
    refine fun c hc => ⟨?_, ?_⟩ <;>
    · rintro rfl
      cases h _ hc
  have hlexemes := @Lexeme.ofCells_word_append text hne h [] [] rfl (by simp)
  rw [List.append_nil] at hlexemes
  obtain ⟨hcells, hstate⟩ := cells_of_plain hplain
  exact ⟨by rw [lexemes, hcells, hlexemes], hstate⟩

/-- An identifier is code, and it is one word. -/
theorem lexemes_of_isIdentifier {text : List Char} (h : Text.isIdentifier text = true) :
    lexemes text = [.word text] ∧ stateAfter (.inside .code) text = .inside .code := by
  obtain ⟨hstart, hword⟩ := Bool.and_eq_true_iff.1 h
  have hne : text ≠ [] := by
    rintro rfl
    cases hstart
  exact lexemes_of_isWordChar hne (List.all_eq_true.1 hword)

/-- The only identifier in an identifier is itself. -/
theorem names_of_isIdentifier {text : List Char} (h : Text.isIdentifier text = true) :
    names text = [text] ∧ stateAfter (.inside .code) text = .inside .code := by
  obtain ⟨hlexemes, hstate⟩ := lexemes_of_isIdentifier h
  rw [names, hlexemes]
  exact ⟨by simp [Lexeme.identifier?, (Bool.and_eq_true_iff.1 h).1], hstate⟩

/-- Words that end with breaks are the identifiers of the text that they make. -/
theorem names_of_words {words : List (List Char × Char)}
    (h : ∀ w ∈ words, Text.isIdentifier w.1 = true ∧ isBreak w.2 = true) :
    names (words.flatMap fun w => w.1 ++ [w.2]) = words.map (·.1) ∧
      stateAfter (.inside .code) (words.flatMap fun w => w.1 ++ [w.2]) = .inside .code := by
  induction words with
  | nil => exact ⟨rfl, rfl⟩
  | cons w rest ih =>
    obtain ⟨⟨hword, hbreak⟩, hrest⟩ := List.forall_mem_cons.1 h
    obtain ⟨hnames, hstate⟩ := ih hrest
    obtain ⟨hown, hcode⟩ := names_of_isIdentifier hword
    have hclosed : ClosedBy w.2 w.1 := closedBy_of_code hbreak hcode
    rw [List.flatMap_cons, List.append_assoc, List.singleton_append,
      names_append_cons hbreak hclosed, stateAfter_append_cons hbreak hclosed, hown, hnames]
    exact ⟨rfl, hstate⟩

/-- Breaks in front of a text do not matter. -/
theorem append_of_isBreak {breaks : List Char} (h : ∀ c ∈ breaks, isBreak c = true)
    (text : List Char) : names (breaks ++ text) = names text ∧
      stateAfter (.inside .code) (breaks ++ text) = stateAfter (.inside .code) text := by
  induction breaks with
  | nil => exact ⟨rfl, rfl⟩
  | cons c rest ih =>
    obtain ⟨hc, hrest⟩ := List.forall_mem_cons.1 h
    obtain ⟨hnames, hstate⟩ := ih hrest
    have hnil : ClosedBy c [] := closedBy_nil hc
    exact ⟨(names_append_cons hc hnil _).trans hnames,
      (stateAfter_append_cons hc hnil _).trans hstate⟩

/-! ## Trimmed texts -/

theorem ne_of_isBlank {c : Char} (h : Text.isBlank c = true) :
    c ≠ '/' ∧ c ≠ '*' ∧ c ≠ '\\' ∧ c ≠ '"' := by
  have hbreak := isBreak_of_isBlank h
  simp only [isBreak, isSteady, Bool.and_eq_true, bne_iff_ne] at hbreak
  exact ⟨hbreak.1.1.1.1, hbreak.1.1.1.2, hbreak.1.1.2, hbreak.1.2⟩

/-- The identifiers in a text, from a state on. -/
def namesFrom (state : State) (text : List Char) : List (List Char) :=
  (Lexeme.ofCells (cellsFrom state text)).filterMap Lexeme.identifier?

/-- **A blank parts identifiers**, in whatever state it is met. -/
theorem namesFrom_append_cons {b : Char} (hb : Text.isBlank b = true) (state : State)
    (x y : List Char) : namesFrom state (x ++ b :: y) = namesFrom state x
      ++ namesFrom ((stateBefore (some b) state x).step b y.head?).2 y := by
  obtain ⟨hslash, hstar, -⟩ := ne_of_isBlank hb
  set moved := (stateBefore (some b) state x).step b y.head? with hmoved
  have hword : ((⟨b, moved.1⟩ : Cell).isCode && Text.isWordChar (⟨b, moved.1⟩ : Cell).char)
      = false := by
    rw [isWordChar_eq_false_of_isBlank hb, Bool.and_false]
  rw [namesFrom, cellsFrom_append, List.head?_cons, (before_cases hslash hstar state x).1,
    cellsFrom, ← hmoved, Lexeme.ofCells_append_cons hword, List.filterMap_append]
  rfl

/-- There are no identifiers where there are no word characters. -/
theorem namesFrom_of_not_isWordChar {text : List Char}
    (h : ∀ c ∈ text, Text.isWordChar c = false) (state : State) : namesFrom state text = [] := by
  induction text generalizing state with
  | nil => rfl
  | cons c rest ih =>
    obtain ⟨hc, hrest⟩ := List.forall_mem_cons.1 h
    rw [namesFrom, cellsFrom, Lexeme.ofCells, if_neg (by simp [hc])]
    exact ih hrest _

theorem namesFrom_append_blanks {blanks : List Char} (h : ∀ b ∈ blanks, Text.isBlank b = true)
    (state : State) (text : List Char) :
    namesFrom state (text ++ blanks) = namesFrom state text := by
  rcases blanks with _ | ⟨b, rest⟩
  · rw [List.append_nil]
  · obtain ⟨hb, hrest⟩ := List.forall_mem_cons.1 h
    have hwordless : ∀ c ∈ rest, Text.isWordChar c = false :=
      fun c hc => isWordChar_eq_false_of_isBlank (hrest c hc)
    rw [namesFrom_append_cons hb, namesFrom_of_not_isWordChar hwordless, List.append_nil]

/-- **A trimmed text has the identifiers that it had.** -/
theorem names_trim (text : List Char) : names (Text.trim text) = names text := by
  obtain ⟨front, back, hfront, hback, htext⟩ := Text.exists_eq_append_trim text
  have hbreaks : ∀ c ∈ front, isBreak c = true := fun c hc => isBreak_of_isBlank (hfront c hc)
  calc names (Text.trim text)
    _ = names (Text.trim text ++ back) := (namesFrom_append_blanks hback (.inside .code) _).symm
    _ = names (front ++ (Text.trim text ++ back)) := (append_of_isBreak hbreaks _).1.symm
    _ = names text := by rw [← htext]

/-- A blank at the end does not close a text. -/
theorem closedBy_of_append_blank {b : Char} (hb : Text.isBlank b = true) {x : List Char}
    (h : ClosedBy '\n' (x ++ [b])) : ClosedBy '\n' x := by
  obtain ⟨hslash, hstar, hback, hquote⟩ := ne_of_isBlank hb
  rw [closedBy_newline_iff, stateAfter_append] at h
  simp only [List.head?_cons, stateAfter, List.head?_nil] at h
  obtain ⟨-, hstate | ⟨-, hstring⟩⟩ := before_cases hslash hstar (.inside .code) x
  · obtain ⟨zone, hzone⟩ : ∃ zone, stateAfter (.inside .code) x = .inside zone :=
      exists_stateAfter_eq_inside (by simp)
    rw [hstate, hzone] at h
    rw [closedBy_newline_iff, hzone]
    cases zone <;> simp_all [State.step]
  · rw [hstring] at h
    simp [State.step] at h

theorem closedBy_of_append_blanks {blanks : List Char}
    (hblanks : ∀ b ∈ blanks, Text.isBlank b = true) {x : List Char}
    (h : ClosedBy '\n' (x ++ blanks)) : ClosedBy '\n' x := by
  induction blanks generalizing x with
  | nil => simpa using h
  | cons b rest ih =>
    obtain ⟨hb, hrest⟩ := List.forall_mem_cons.1 hblanks
    rw [List.append_cons] at h
    exact closedBy_of_append_blank hb (ih hrest h)

/-- A closed text can be trimmed. -/
theorem closedBy_trim {text : List Char} (h : ClosedBy '\n' text) :
    ClosedBy '\n' (Text.trim text) := by
  obtain ⟨front, back, hfront, hback, htext⟩ := Text.exists_eq_append_trim text
  have hbreaks : ∀ c ∈ front, isBreak c = true := fun c hc => isBreak_of_isBlank (hfront c hc)
  refine closedBy_of_append_blanks hback ?_
  rw [ClosedBy, ← (append_of_isBreak hbreaks _).2, ← htext]
  exact h

/-! ## Joined texts -/

/-- A text that opens with a break starts anew behind a text that the break closes. -/
theorem append_of_opening {x y : String} {c : Char} (hc : isBreak c = true)
    (hx : ClosedBy c x.toList) (hy : y.toList.head? = some c) :
    identifiers (x ++ y) = identifiers x ++ identifiers y ∧
      stateAfter (.inside .code) (x ++ y).toList = stateAfter (.inside .code) y.toList := by
  obtain ⟨rest, hrest⟩ := List.head?_eq_some_iff.1 hy
  have hnil : ClosedBy c [] := closedBy_nil hc
  have hnames : names (c :: rest) = names rest := names_append_cons hc hnil rest
  have hstate := stateAfter_append_cons hc hnil rest
  rw [List.nil_append] at hstate
  simp only [identifiers_eq, String.toList_append, hrest, hnames, hstate, names_append_cons hc hx,
    stateAfter_append_cons hc hx, List.map_append, and_self]

/-- A text that ends with a break which closes it goes on with a text that starts anew. -/
theorem append_of_closing {x y : String} {front : List Char} {c : Char} (hc : isBreak c = true)
    (hfront : ClosedBy c front) (hx : x.toList = front ++ [c]) :
    identifiers (x ++ y) = identifiers x ++ identifiers y ∧
      stateAfter (.inside .code) (x ++ y).toList = stateAfter (.inside .code) y.toList := by
  have hnames : names (front ++ [c]) = names front := by
    rw [names_append_cons hc hfront]
    exact List.append_nil _
  simp only [identifiers_eq, String.toList_append, hx, List.append_assoc, List.singleton_append,
    hnames, names_append_cons hc hfront, stateAfter_append_cons hc hfront, List.map_append,
    and_self]

/-- **Lines keep their identifiers when they are joined.** -/
theorem intercalate_closed {sep : String} (hsep : sep = "\n" ∨ sep = "\n\n") {texts : List String}
    (h : ∀ text ∈ texts, ClosedBy '\n' text.toList) :
    ClosedBy '\n' (sep.intercalate texts).toList ∧
      identifiers (sep.intercalate texts) = texts.flatMap identifiers := by
  have hbreaks : sep.toList.all isBreak = true := by
    rcases hsep with rfl | rfl <;> decide
  have hopens : ∀ y : String, (sep ++ y).toList.head? = some '\n' := by
    intro y
    rcases hsep with rfl | rfl <;> simp
  induction texts with
  | nil => exact ⟨closedBy_nil (by decide), by simp; rfl⟩
  | cons text rest ih =>
    obtain ⟨htext, hrest⟩ := List.forall_mem_cons.1 h
    rcases rest with _ | ⟨next, rest⟩
    · simpa using htext
    · obtain ⟨hclosed, hids⟩ := ih hrest
      obtain ⟨hjoined, hstate⟩ := append_of_opening (by decide) htext
        (hopens (sep.intercalate (next :: rest)))
      obtain ⟨hnames, hstate'⟩ := append_of_isBreak (List.all_eq_true.1 hbreaks)
        (sep.intercalate (next :: rest)).toList
      rw [String.intercalate_cons_cons, String.append_assoc]
      constructor
      · rw [ClosedBy, hstate, String.toList_append, hstate']
        exact hclosed
      · rw [hjoined, List.flatMap_cons, ← hids]
        simp only [identifiers_eq, String.toList_append, hnames]

/-- A line between others stands by itself, and so do its identifiers. -/
theorem intercalate_split {head tail : List String} {line : String} (hhead : head ≠ [])
    (htail : tail ≠ []) (h : ∀ text ∈ head ++ line :: tail, ClosedBy '\n' text.toList) :
    "\n".intercalate (head ++ line :: tail)
      = "\n".intercalate head ++ "\n" ++ line ++ "\n" ++ "\n".intercalate tail ∧
    identifiers ("\n".intercalate (head ++ line :: tail)) = identifiers ("\n".intercalate head)
      ++ identifiers line ++ identifiers ("\n".intercalate tail) := by
  obtain ⟨hbefore, hrest⟩ := List.forall_mem_append.1 h
  obtain ⟨-, hafter⟩ := List.forall_mem_cons.1 hrest
  constructor
  · rw [String.intercalate_append_of_ne_nil hhead (List.cons_ne_nil line tail),
      String.intercalate_cons_of_ne_nil htail]
    simp only [String.append_assoc]
  · rw [(intercalate_closed (Or.inl rfl) h).2, (intercalate_closed (Or.inl rfl) hbefore).2,
      (intercalate_closed (Or.inl rfl) hafter).2, List.flatMap_append, List.flatMap_cons,
      List.append_assoc]

end ShaderGraph.Glsl
