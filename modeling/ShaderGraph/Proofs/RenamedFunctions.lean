import ShaderGraph.Emit.Library
import ShaderGraph.Proofs.Declarations
import ShaderGraph.Proofs.Functions
import ShaderGraph.Proofs.Renaming
import ShaderGraph.Proofs.Seams

/-!
# Renamed functions

The code of a node whose functions are its own is scanned twice: once for the names that the
functions have, and once more when they have got new ones. The second scan is the one that counts.

It finds the same functions. A scan goes by marks, gaps and reserved words, and a renaming changes
none of these if it neither touches reserved words nor makes any (`Unreserved.unseen`). So where a
function was found one is found, and where there was none there is none (`Unseen.cuts_map`),
although other words stand everywhere. The names of a node's own functions have an underscore, and
no reserved word has one.

Parameter types are another matter: a function may be called like a qualifier, and then the
qualifier is renamed as well.
-/

namespace ShaderGraph.Glsl

/-! ## What a scan goes by -/

theorem Lexeme.isPlain_word {chars : List Char} : (Lexeme.word chars).IsPlain ↔
    Text.startsIdentifier chars = true ∧ String.ofList chars ∉ reservedWords := by
  simp [IsPlain]

/-- A change of lexemes that a scan takes no notice of: marks and gaps stay what they are, and words
that may be types or names stay such words. -/
structure Unseen (g : Lexeme → Lexeme) : Prop where
  isMark : ∀ lexeme mark, (g lexeme).isMark mark = lexeme.isMark mark
  isTrivial : ∀ lexeme, (g lexeme).isTrivial = lexeme.isTrivial
  isPlain : ∀ lexeme, (g lexeme).IsPlain ↔ lexeme.IsPlain

/-- A layout with other lexemes. -/
def Layout.map (g : Lexeme → Lexeme) (l : Layout) : Layout where
  type := g l.type
  typeGap := l.typeGap.map g
  name := g l.name
  nameGap := l.nameGap.map g
  params := l.params.map g
  paramsGap := l.paramsGap.map g
  body := l.body.map g

theorem Layout.lexemes_map (g : Lexeme → Lexeme) (l : Layout) :
    (l.map g).lexemes = l.lexemes.map g := by
  simp [Layout.map, lexemes]

/-- A cut with other lexemes. -/
def Cut.map (g : Lexeme → Lexeme) : Cut → Cut
  | .function layout => .function (layout.map g)
  | .loose lexeme => .loose (g lexeme)

theorem Cut.layout?_map (g : Lexeme → Lexeme) (cut : Cut) :
    (cut.map g).layout? = cut.layout?.map (Layout.map g) := by
  cases cut <;> rfl

namespace Unseen

variable {g : Lexeme → Lexeme} (hg : Unseen g) {opening closing : Char}

include hg

theorem nesting_eq (depth : Nat) (lexeme : Lexeme) :
    nesting opening closing depth (g lexeme) = nesting opening closing depth lexeme := by
  simp only [nesting, hg.isMark]

theorem untilClosed_map (depth : Nat) (lexemes : List Lexeme) :
    untilClosed opening closing depth (lexemes.map g)
      = (untilClosed opening closing depth lexemes).map fun r => (r.1.map g, r.2.map g) := by
  induction lexemes generalizing depth with
  | nil => rfl
  | cons lexeme rest ih =>
    rw [List.map_cons, untilClosed, untilClosed, hg.isMark, hg.nesting_eq, ih]
    split
    · rfl
    · simp only [Option.map_map, Function.comp_def, List.map_cons]

theorem bracketed?_map (lexemes : List Lexeme) :
    bracketed? opening closing (lexemes.map g)
      = (bracketed? opening closing lexemes).map fun r => (r.1.map g, r.2.map g) := by
  cases lexemes with
  | nil => rfl
  | cons lexeme rest =>
    rw [List.map_cons, bracketed?, bracketed?, hg.isMark]
    split
    · exact hg.untilClosed_map 0 (lexeme :: rest)
    · rfl

theorem afterTrivia_map (lexemes : List Lexeme) :
    afterTrivia (lexemes.map g)
      = ((afterTrivia lexemes).1.map g, (afterTrivia lexemes).2.map g) := by
  have hsame : Lexeme.isTrivial ∘ g = Lexeme.isTrivial := funext hg.isTrivial
  rw [afterTrivia, List.takeWhile_map, List.dropWhile_map, hsame]
  rfl

theorem plainWord?_map (lexemes : List Lexeme) :
    plainWord? (lexemes.map g) = (plainWord? lexemes).map fun r =>
      (g r.1, String.ofList (g r.1).chars, r.2.2.map g) := by
  cases lexemes with
  | nil => rfl
  | cons lexeme rest =>
    by_cases hplain : lexeme.IsPlain
    · rw [plainWord?_eq_some_iff.2 ⟨rfl, hplain, rfl⟩]
      exact plainWord?_eq_some_iff.2 ⟨rfl, (hg.isPlain lexeme).2 hplain, rfl⟩
    · have hnone : ∀ x r, ¬x.IsPlain → plainWord? (x :: r) = none := by
        intro x r hx
        refine Option.eq_none_iff_forall_ne_some.2 fun found hfound => ?_
        obtain ⟨hparts, hword, -⟩ := plainWord?_eq_some_iff.1 hfound
        exact hx ((List.cons.inj hparts).1 ▸ hword)
      rw [List.map_cons, hnone _ _ hplain, hnone _ _ (mt (hg.isPlain lexeme).1 hplain)]
      rfl

/-- A function is found where one was found, and nowhere else. -/
theorem isNone_function?_map (lexemes : List Lexeme) :
    (function? (lexemes.map g)).isNone = (function? lexemes).isNone := by
  unfold function?
  simp only [Option.bind_eq_bind]
  rw [hg.plainWord?_map]
  rcases plainWord? lexemes with _ | ⟨type, typeName, r1⟩
  · rfl
  simp only [Option.map_some, Option.bind_some, hg.afterTrivia_map, hg.plainWord?_map]
  rcases plainWord? (afterTrivia r1).2 with _ | ⟨name, nameName, r2⟩
  · rfl
  simp only [Option.map_some, Option.bind_some, hg.afterTrivia_map, hg.bracketed?_map]
  rcases bracketed? '(' ')' (afterTrivia r2).2 with _ | ⟨params, r3⟩
  · rfl
  simp only [Option.map_some, Option.bind_some, hg.afterTrivia_map, hg.bracketed?_map]
  rcases bracketed? '\x7b' '\x7d' (afterTrivia r3).2 with _ | ⟨body, r4⟩
  · rfl
  · rfl

theorem enclosed_map {lexemes : List Lexeme} (h : Enclosed opening closing lexemes) :
    Enclosed opening closing (lexemes.map g) := by
  obtain ⟨first, tail, rfl, hopen, hself⟩ := h
  refine ⟨g first, tail.map g, rfl, (hg.isMark first opening).trans hopen, ?_⟩
  rw [hg.untilClosed_map, hself]
  rfl

theorem isTrivial_of_mem_map {lexemes : List Lexeme} (h : ∀ x ∈ lexemes, x.isTrivial = true) :
    ∀ x ∈ lexemes.map g, x.isTrivial = true := by
  intro x hx
  obtain ⟨y, hy, rfl⟩ := List.mem_map.1 hx
  exact (hg.isTrivial y).trans (h y hy)

theorem valid_map {l : Layout} (h : l.Valid) : (l.map g).Valid where
  type := (hg.isPlain _).2 h.type
  typeGap := hg.isTrivial_of_mem_map h.typeGap
  name := (hg.isPlain _).2 h.name
  nameGap := hg.isTrivial_of_mem_map h.nameGap
  params := hg.enclosed_map h.params
  paramsGap := hg.isTrivial_of_mem_map h.paramsGap
  body := hg.enclosed_map h.body

/-- **What a scan takes no notice of is cut in the same places.** -/
theorem cuts_map {depth : Nat} {lexemes : List Lexeme} {cuts : List Cut}
    (h : Cuts depth lexemes cuts) : Cuts depth (lexemes.map g) (cuts.map (Cut.map g)) := by
  induction h with
  | nil => exact .nil
  | function hvalid _ ih =>
    rw [List.map_append, ← Layout.lexemes_map]
    exact .function (hg.valid_map hvalid) ih
  | loose hnone _ ih =>
    refine .loose (fun hdepth => ?_) (by rw [hg.nesting_eq]; exact ih)
    rw [← Option.isNone_iff_eq_none, ← List.map_cons, hg.isNone_function?_map]
    exact Option.isNone_iff_eq_none.2 (hnone hdepth)

end Unseen

/-! ## Renamed functions -/

namespace Renaming

/-- The renaming leaves reserved words alone and makes none. -/
structure Unreserved (names : Renaming) : Prop where
  toIdentifiers : names.ToIdentifiers
  old : ∀ entry ∈ names, entry.1 ∉ reservedWords
  new : ∀ entry ∈ names, entry.2 ∉ reservedWords

theorem Unreserved.apply_mem_iff {names : Renaming} (h : names.Unreserved) (name : String) :
    names.apply name ∈ reservedWords ↔ name ∈ reservedWords := by
  constructor
  · intro hmem
    rcases names.apply_cases name with hkept | ⟨entry, hentry, hnew⟩
    · rwa [hkept] at hmem
    · exact absurd (hnew ▸ hmem) (h.new entry hentry)
  · intro hmem
    rw [apply_of_not_mem]
    · exact hmem
    · intro hold
      obtain ⟨entry, hentry, rfl⟩ := List.mem_map.1 hold
      exact h.old entry hentry hmem

theorem startsIdentifier_apply {names : Renaming} (h : names.ToIdentifiers) {name : String}
    (hname : Text.startsIdentifier name.toList = true) :
    Text.startsIdentifier (names.apply name).toList = true := by
  rcases names.apply_cases name with hkept | ⟨entry, hentry, hnew⟩
  · rwa [hkept]
  · rw [hnew]
    exact startsIdentifier_of_isIdentifier (h entry hentry)

theorem onLexeme_word (names : Renaming) {chars : List Char}
    (h : Text.startsIdentifier chars = true) :
    names.onLexeme (.word chars) = .word (names.apply (String.ofList chars)).toList := by
  simp [onLexeme, Lexeme.identifier?, h]

/-- Renaming changes identifiers only. -/
theorem onLexeme_cases (names : Renaming) (lexeme : Lexeme) : names.onLexeme lexeme = lexeme ∨
    ∃ chars, lexeme = .word chars ∧ Text.startsIdentifier chars = true := by
  cases lexeme with
  | other cell => exact .inl rfl
  | word chars =>
    by_cases hstarts : Text.startsIdentifier chars
    · exact .inr ⟨chars, rfl, hstarts⟩
    · exact .inl (by simp [onLexeme, Lexeme.identifier?, hstarts])

/-- **A scan takes no notice of a renaming** that leaves reserved words alone. -/
theorem Unreserved.unseen {names : Renaming} (h : names.Unreserved) : Unseen names.onLexeme := by
  constructor
  · intro lexeme mark
    rcases names.onLexeme_cases lexeme with hsame | ⟨chars, rfl, hstarts⟩
    · rw [hsame]
    · rw [names.onLexeme_word hstarts]
      rfl
  · intro lexeme
    rcases names.onLexeme_cases lexeme with hsame | ⟨chars, rfl, hstarts⟩
    · rw [hsame]
    · rw [names.onLexeme_word hstarts]
      rfl
  · intro lexeme
    rcases names.onLexeme_cases lexeme with hsame | ⟨chars, rfl, hstarts⟩
    · rw [hsame]
    · have hnew : Text.startsIdentifier (names.apply (String.ofList chars)).toList = true :=
        startsIdentifier_apply h.toIdentifiers (by rwa [String.toList_ofList])
      rw [names.onLexeme_word hstarts, Lexeme.isPlain_word, Lexeme.isPlain_word,
        String.ofList_toList, h.apply_mem_iff]
      simp [hstarts, hnew]

theorem rename_of_isIdentifier (names : Renaming) {word : String}
    (h : Text.isIdentifier word.toList = true) : names.rename word = names.apply word := by
  have hstarts := startsIdentifier_of_isIdentifier h
  rw [← String.toList_inj, toList_rename, (lexemes_of_isIdentifier h).1, List.map_singleton,
    names.onLexeme_word hstarts, String.ofList_toList]
  exact List.append_nil _

/-- A type or a name is renamed as a text. -/
theorem chars_onLexeme_of_isPlain (names : Renaming) {lexeme : Lexeme} (hplain : lexeme.IsPlain)
    (hproper : lexeme.Proper) : String.ofList (names.onLexeme lexeme).chars
      = names.rename (String.ofList lexeme.chars) := by
  obtain ⟨chars, rfl, hstarts, -⟩ := hplain
  have hword : Text.isIdentifier (String.ofList chars).toList = true := by
    rw [String.toList_ofList]
    exact Bool.and_eq_true_iff.2 ⟨hstarts, List.all_eq_true.2 hproper.2⟩
  rw [names.onLexeme_word hstarts, Lexeme.chars, String.ofList_toList]
  exact (names.rename_of_isIdentifier hword).symm

/-- A renamed function: its return type, its name and its text are renamed. -/
structure Renames (names : Renaming) (f g : Function) : Prop where
  returnType : g.returnType = names.rename f.returnType
  name : g.name = names.rename f.name
  text : g.text = names.rename f.text

/-- **The functions of a renamed text are the renamed functions of the text**, one for one. -/
theorem Unreserved.functionsOf_rename {names : Renaming} (h : names.Unreserved) (text : String) :
    List.Forall₂ names.Renames (functionsOf text) (functionsOf (names.rename text)) := by
  obtain ⟨cuts, hcuts⟩ := exists_cuts 0 (lexemes text.toList)
  have hrenamed : Cuts 0 (lexemes (names.rename text).toList)
      (cuts.map (Cut.map names.onLexeme)) := by
    rw [lexemes_rename h.toIdentifiers]
    exact h.unseen.cuts_map hcuts
  have hlayouts : (cuts.map (Cut.map names.onLexeme)).filterMap Cut.layout?
      = (cuts.filterMap Cut.layout?).map (Layout.map names.onLexeme) := by
    rw [List.filterMap_map, List.map_filterMap]
    exact List.filterMap_congr fun cut _ => Cut.layout?_map _ cut
  rw [hcuts.functionsOf_eq, hrenamed.functionsOf_eq, hlayouts, List.map_map,
    List.forall₂_map_left_iff, List.forall₂_map_right_iff, List.forall₂_same]
  intro l hl
  obtain ⟨cut, hcut, hlayout⟩ := List.mem_filterMap.1 hl
  obtain rfl := Cut.layout?_eq_some_iff.1 hlayout
  have hvalid := hcuts.valid hcut
  obtain ⟨before, after, hparts⟩ := hcuts.exists_split hcut
  have hproper : ∀ lexeme ∈ l.lexemes, lexeme.Proper := fun lexeme hlexeme =>
    (wellFormed_lexemes text.toList).proper lexeme (by simp [hparts, hlexeme])
  refine ⟨?_, ?_, ?_⟩
  · exact names.chars_onLexeme_of_isPlain hvalid.type (hproper _ (by simp [Layout.lexemes]))
  · exact names.chars_onLexeme_of_isPlain hvalid.name (hproper _ (by simp [Layout.lexemes]))
  · rw [← String.toList_inj, toList_rename]
    simp only [Function.comp_apply, Layout.function, String.toList_ofList, Layout.lexemes_map,
      lexemes_layout hvalid hparts]

end Renaming

/-! ## Functions that belong to one node -/

/-- The name of a function is an identifier and not reserved. -/
theorem isIdentifier_name {text : String} {f : Function} (h : f ∈ functionsOf text) :
    Text.isIdentifier f.name.toList = true ∧ f.name ∉ reservedWords := by
  obtain ⟨l, hl, rfl, hread, -⟩ := exists_layout_of_mem_functionsOf h
  obtain ⟨chars, hchars, hstarts, hfree⟩ := hl.name
  have hproper : l.name.Proper :=
    (wellFormed_lexemes _).proper _ (by rw [hread]; simp [Layout.lexemes])
  rw [hchars] at hproper
  have hname : l.function.name = String.ofList chars := by rw [Layout.function, hchars]; rfl
  rw [hname, String.toList_ofList]
  exact ⟨Bool.and_eq_true_iff.2 ⟨hstarts, List.all_eq_true.2 hproper.2⟩, hfree⟩

/-- The name of a node's own function is an identifier and not reserved. -/
theorem isIdentifier_instanced {name : String} (h : Text.isIdentifier name.toList = true)
    (nodeId : String) : Text.isIdentifier (Symbol.instanced name nodeId).toList = true ∧
      Symbol.instanced name nodeId ∉ reservedWords := by
  obtain ⟨hstarts, hword⟩ := Bool.and_eq_true_iff.1 h
  have hlist : (Symbol.instanced name nodeId).toList
      = name.toList ++ '_' :: (Symbol.clean nodeId).toList := by
    simp [Symbol.instanced]
  constructor
  · have hclean : (Symbol.clean nodeId).toList.all Text.isWordChar = true :=
      List.all_eq_true.2 fun _ => Symbol.isWordChar_of_mem_clean
    rw [hlist, Text.isIdentifier, List.all_append, List.all_cons, hword, hclean]
    cases hname : name.toList with
    | nil => simp [hname, Text.startsIdentifier] at hstarts
    | cons c rest =>
      rw [hname] at hstarts
      simpa [Text.startsIdentifier] using ⟨hstarts, by decide⟩
  · intro hreserved
    have hbar : (reservedWords.all fun word => !word.toList.contains '_') = true := by decide
    simpa [hlist] using List.all_eq_true.1 hbar _ hreserved

theorem unreserved_instanceRenaming (text nodeId : String) :
    (instanceRenaming nodeId (functionsOf text)).Unreserved := by
  have hentry : ∀ entry ∈ instanceRenaming nodeId (functionsOf text),
      Text.isIdentifier entry.2.toList = true ∧ entry.1 ∉ reservedWords ∧
        entry.2 ∉ reservedWords := by
    intro entry hmem
    obtain ⟨f, hf, rfl⟩ := List.mem_map.1 hmem
    obtain ⟨hname, hfree⟩ := isIdentifier_name hf
    obtain ⟨hnew, hnewFree⟩ := isIdentifier_instanced hname nodeId
    exact ⟨hnew, hfree, hnewFree⟩
  exact ⟨fun entry hmem => (hentry entry hmem).1, fun entry hmem => (hentry entry hmem).2.1,
    fun entry hmem => (hentry entry hmem).2.2⟩

/-- What has a new name has the one with the id of the node. -/
theorem apply_instanceRenaming (nodeId : String) {functions : List Function} {f : Function}
    (h : f ∈ functions) :
    (instanceRenaming nodeId functions).apply f.name = Symbol.instanced f.name nodeId := by
  have hold : f.name ∈ (instanceRenaming nodeId functions).map (·.1) :=
    List.mem_map.2 ⟨_, List.mem_map.2 ⟨f, h, rfl⟩, rfl⟩
  -- overloads have entries of their own, which all say the same
  obtain ⟨g, -, heq⟩ := List.mem_map.1 (Renaming.apply_mem hold)
  obtain ⟨hname, hnew⟩ := Prod.mk.inj heq
  exact hnew.symm.trans (by rw [hname])

/-- **Functions stay what they are when they become a node's own.** Whatever the text and the id of
the node, with the functions of the text renamed there are as many functions, in the same order, and
each has the return type, the name and the text that it had, renamed. The name is the one with the
id of the node. -/
theorem scan_instanced (text nodeId : String) :
    let functions := functionsOf text
    let names := instanceRenaming nodeId functions
    List.Forall₂
      (fun f own => names.Renames f own ∧ own.name = Symbol.instanced f.name nodeId)
      functions (functionsOf (names.rename text)) := by
  intro functions names
  have hrenames := (unreserved_instanceRenaming text nodeId).functionsOf_rename text
  have hmem := (List.forall₂_and_left _ _).2 ⟨fun f (hf : f ∈ functions) => hf, hrenames⟩
  refine hmem.imp fun f own hown => ⟨hown.2, ?_⟩
  rw [hown.2.name, names.rename_of_isIdentifier (isIdentifier_name hown.1).1]
  exact apply_instanceRenaming nodeId hown.1

end ShaderGraph.Glsl
