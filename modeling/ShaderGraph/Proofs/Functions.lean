import ShaderGraph.Glsl.Function
import ShaderGraph.Proofs.Stretches
import Mathlib.Data.List.TakeWhile

/-!
# Functions by themselves

`Layout` takes a function apart into the lexemes it is written with, and what `function?` finds at
the start of lexemes is exactly a valid layout (`function?_eq_some_iff`). `Cuts` says how a whole
text is taken apart, so that nothing is lost. A layout starts with a word and ends with a brace, so
it reads by itself as it reads in place. Hence the text of a function is scanned as that function
and nothing else (`functionsOf_text`).
-/

namespace ShaderGraph.Glsl

/-! ## Words and gaps -/

/-- A word that may be a type or the name of a function. -/
def Lexeme.IsPlain (lexeme : Lexeme) : Prop :=
  ∃ chars, lexeme = .word chars ∧ Text.startsIdentifier chars = true
    ∧ String.ofList chars ∉ reservedWords

theorem plainWord?_eq_some_iff {lexemes rest : List Lexeme} {lexeme : Lexeme} {word : String} :
    plainWord? lexemes = some (lexeme, word, rest)
      ↔ lexemes = lexeme :: rest ∧ lexeme.IsPlain ∧ word = String.ofList lexeme.chars := by
  constructor
  · intro h
    rcases lexemes with _ | ⟨⟨chars⟩ | ⟨cell⟩, tail⟩
    · cases h
    · simp only [plainWord?, Lexeme.identifier?] at h
      split at h
      · cases h
      · rename_i found hfound
        split at hfound
        · rename_i hstart
          obtain rfl := Option.some.inj hfound
          split at h
          · cases h
          · rename_i hfree
            obtain ⟨rfl, rfl, rfl⟩ := by simpa using h
            exact ⟨rfl, ⟨chars, rfl, hstart, by simpa using hfree⟩, rfl⟩
        · cases hfound
    · cases h
  · rintro ⟨rfl, ⟨chars, rfl, hstart, hfree⟩, rfl⟩
    simp [plainWord?, Lexeme.identifier?, Lexeme.chars, hstart, hfree]

/-- A mark that is no blank says something. -/
theorem Lexeme.isTrivial_of_isMark {lexeme : Lexeme} {mark : Char} (h : lexeme.isMark mark = true)
    (hmark : isSpace mark = false) : lexeme.isTrivial = false := by
  cases lexeme with
  | word chars => rfl
  | other cell =>
    simp only [isMark, Bool.and_eq_true, beq_iff_eq] at h
    simp [isTrivial, h.1, h.2, hmark]

theorem Lexeme.IsPlain.isTrivial {lexeme : Lexeme} (h : lexeme.IsPlain) :
    lexeme.isTrivial = false := by
  obtain ⟨chars, rfl, -⟩ := h
  rfl

/-- A gap goes up to the first lexeme that says something. -/
theorem afterTrivia_append {gap rest : List Lexeme} {lexeme : Lexeme}
    (hgap : ∀ g ∈ gap, g.isTrivial = true) (h : lexeme.isTrivial = false) :
    afterTrivia (gap ++ lexeme :: rest) = (gap, lexeme :: rest) := by
  have hstop : ¬lexeme.isTrivial = true := by simp [h]
  rw [afterTrivia, List.takeWhile_append_of_pos hgap, List.dropWhile_append_of_pos hgap,
    List.takeWhile_cons_of_neg hstop, List.dropWhile_cons_of_neg hstop, List.append_nil]

/-! ## Brackets -/

section Brackets

variable {opening closing : Char} {depth : Nat} {lexemes inside rest : List Lexeme}

/-- Whether a lexeme closes the first mark opened. -/
def closes (opening closing : Char) (depth : Nat) (lexeme : Lexeme) : Bool :=
  lexeme.isMark closing && nesting opening closing depth lexeme == 0

/-- A lexeme closes the first mark opened, or the search goes on behind it. -/
theorem untilClosed_cons_eq_some_iff {lexeme : Lexeme} {tail : List Lexeme} :
    untilClosed opening closing depth (lexeme :: tail) = some (inside, rest) ↔
      (closes opening closing depth lexeme = true ∧ inside = [lexeme] ∧ rest = tail) ∨
      (closes opening closing depth lexeme = false ∧ ∃ more, inside = lexeme :: more ∧
        untilClosed opening closing (nesting opening closing depth lexeme) tail
          = some (more, rest)) := by
  rw [untilClosed, ← closes]
  cases closes opening closing depth lexeme with
  | true => simp [eq_comm]
  | false =>
    simp only [Bool.false_eq_true, if_false, false_and, true_and, false_or,
      Option.map_eq_some_iff, Prod.exists, Prod.mk.injEq]
    constructor
    · rintro ⟨more, _, hmore, rfl, rfl⟩
      exact ⟨more, rfl, hmore⟩
    · rintro ⟨more, rfl, hmore⟩
      exact ⟨more, rest, hmore, rfl, rfl⟩

/-- Whether a bracket is closed can be told from what stands up to its closing mark. -/
theorem untilClosed_eq_some_iff : untilClosed opening closing depth lexemes = some (inside, rest)
    ↔ lexemes = inside ++ rest ∧ untilClosed opening closing depth inside = some (inside, []) := by
  induction lexemes generalizing depth inside with
  | nil =>
    constructor
    · intro h
      cases h
    · rintro ⟨hnil, h⟩
      obtain ⟨rfl, -⟩ := List.append_eq_nil_iff.1 hnil.symm
      cases h
  | cons lexeme tail ih =>
    constructor
    · intro h
      obtain ⟨hclosed, rfl, rfl⟩ | ⟨hopen, more, rfl, hmore⟩ := untilClosed_cons_eq_some_iff.1 h
      · exact ⟨rfl, untilClosed_cons_eq_some_iff.2 (.inl ⟨hclosed, rfl, rfl⟩)⟩
      · obtain ⟨rfl, hself⟩ := ih.1 hmore
        exact ⟨rfl, untilClosed_cons_eq_some_iff.2 (.inr ⟨hopen, more, rfl, hself⟩)⟩
    · rintro ⟨hparts, h⟩
      rcases inside with _ | ⟨first, inside⟩
      · cases h
      · obtain ⟨rfl, rfl⟩ := List.cons.inj hparts
        obtain ⟨hclosed, hone, -⟩ | ⟨hopen, more, hmore, hself⟩ := untilClosed_cons_eq_some_iff.1 h
        · obtain rfl : inside = [] := (List.cons.inj hone).2
          exact untilClosed_cons_eq_some_iff.2 (.inl ⟨hclosed, rfl, rfl⟩)
        · obtain rfl : inside = more := (List.cons.inj hmore).2
          exact untilClosed_cons_eq_some_iff.2 (.inr ⟨hopen, inside, rfl, ih.2 ⟨rfl, hself⟩⟩)

theorem Lexeme.isMark_iff {lexeme : Lexeme} {mark : Char} :
    lexeme.isMark mark = true ↔ lexeme = .other ⟨mark, true⟩ := by
  rcases lexeme with chars | ⟨c, isCode⟩ <;> simp [isMark, and_comm]

/-- A closed bracket ends with its closing mark. -/
theorem exists_last_of_untilClosed
    (h : untilClosed opening closing depth lexemes = some (inside, rest)) :
    ∃ inner, inside = inner ++ [.other ⟨closing, true⟩] := by
  induction lexemes generalizing depth inside with
  | nil => cases h
  | cons lexeme tail ih =>
    obtain ⟨hclosed, rfl, rfl⟩ | ⟨-, more, rfl, hmore⟩ := untilClosed_cons_eq_some_iff.1 h
    · rw [Lexeme.isMark_iff.1 (Bool.and_eq_true_iff.1 hclosed).1]
      exact ⟨[], rfl⟩
    · obtain ⟨inner, rfl⟩ := ih hmore
      exact ⟨lexeme :: inner, rfl⟩

/-- Lexemes from an opening mark to the mark that closes it. -/
def Enclosed (opening closing : Char) (lexemes : List Lexeme) : Prop :=
  ∃ first tail, lexemes = first :: tail ∧ first.isMark opening = true
    ∧ untilClosed opening closing 0 lexemes = some (lexemes, [])

theorem bracketed?_eq_some_iff : bracketed? opening closing lexemes = some (inside, rest)
    ↔ lexemes = inside ++ rest ∧ Enclosed opening closing inside := by
  constructor
  · intro h
    rcases lexemes with _ | ⟨lexeme, tail⟩
    · cases h
    · simp only [bracketed?] at h
      split at h
      · rename_i hmark
        obtain ⟨hparts, hself⟩ := untilClosed_eq_some_iff.1 h
        rcases inside with _ | ⟨first, more⟩
        · cases hself
        · obtain ⟨rfl, -⟩ := List.cons.inj hparts
          exact ⟨hparts, lexeme, more, rfl, hmark, hself⟩
      · cases h
  · rintro ⟨rfl, first, tail, rfl, hmark, hself⟩
    simp only [bracketed?, List.cons_append, hmark, if_true]
    exact untilClosed_eq_some_iff.2 ⟨rfl, hself⟩

end Brackets

/-! ## Layouts -/

/-- The lexemes that a function is written with. -/
structure Layout where
  type : Lexeme
  typeGap : List Lexeme
  name : Lexeme
  nameGap : List Lexeme
  params : List Lexeme
  paramsGap : List Lexeme
  body : List Lexeme

namespace Layout

variable (l : Layout)

/-- All the lexemes, in order. -/
def lexemes : List Lexeme :=
  l.type :: l.typeGap ++ l.name :: l.nameGap ++ l.params ++ l.paramsGap ++ l.body

/-- The function that is written so. -/
def function : Function where
  returnType := String.ofList l.type.chars
  name := String.ofList l.name.chars
  paramTypes := paramTypes (l.params.drop 1).dropLast
  text := String.ofList (textOf l.lexemes)

/-- A type and a name, parameters in parentheses and a body in braces, and nothing else that says
anything. -/
structure Valid : Prop where
  type : l.type.IsPlain
  typeGap : ∀ g ∈ l.typeGap, g.isTrivial = true
  name : l.name.IsPlain
  nameGap : ∀ g ∈ l.nameGap, g.isTrivial = true
  params : Enclosed '(' ')' l.params
  paramsGap : ∀ g ∈ l.paramsGap, g.isTrivial = true
  body : Enclosed '\x7b' '\x7d' l.body

variable {l}

theorem exists_word_of_valid (h : l.Valid) : ∃ chars tail, l.lexemes = .word chars :: tail := by
  obtain ⟨chars, hchars, -⟩ := h.type
  exact ⟨chars, _, by rw [lexemes, hchars]; rfl⟩

theorem exists_last_of_valid (h : l.Valid) :
    ∃ inner, l.lexemes = inner ++ [.other ⟨'\x7d', true⟩] := by
  obtain ⟨first, tail, -, -, hself⟩ := h.body
  obtain ⟨inner, hbody⟩ := exists_last_of_untilClosed hself
  refine ⟨l.type :: l.typeGap ++ l.name :: l.nameGap ++ l.params ++ l.paramsGap ++ inner, ?_⟩
  rw [lexemes, hbody, List.append_assoc _ inner]

/-- What follows a function does not matter to it. -/
theorem function?_of_valid (h : l.Valid) (rest : List Lexeme) :
    function? (l.lexemes ++ rest) = some (l.function, rest) := by
  obtain ⟨first, tail, hparams, hopen, -⟩ := h.params
  obtain ⟨brace, inner, hbody, hbrace, -⟩ := h.body
  have hname : l.name.isTrivial = false := h.name.isTrivial
  have hparens : first.isTrivial = false := Lexeme.isTrivial_of_isMark hopen (by decide)
  have hbraces : brace.isTrivial = false := Lexeme.isTrivial_of_isMark hbrace (by decide)
  have htypeWord (r : List Lexeme) : plainWord? (l.type :: r)
      = some (l.type, String.ofList l.type.chars, r) :=
    plainWord?_eq_some_iff.2 ⟨rfl, h.type, rfl⟩
  have hnameWord (r : List Lexeme) : plainWord? (l.name :: r)
      = some (l.name, String.ofList l.name.chars, r) :=
    plainWord?_eq_some_iff.2 ⟨rfl, h.name, rfl⟩
  have htypeGap (r : List Lexeme) : afterTrivia (l.typeGap ++ l.name :: r)
      = (l.typeGap, l.name :: r) := afterTrivia_append h.typeGap hname
  have hnameGap (r : List Lexeme) : afterTrivia (l.nameGap ++ (l.params ++ r))
      = (l.nameGap, l.params ++ r) := by
    rw [hparams]
    exact afterTrivia_append h.nameGap hparens
  have hparamsGap (r : List Lexeme) : afterTrivia (l.paramsGap ++ (l.body ++ r))
      = (l.paramsGap, l.body ++ r) := by
    rw [hbody]
    exact afterTrivia_append h.paramsGap hbraces
  have hparens (r : List Lexeme) : bracketed? '(' ')' (l.params ++ r) = some (l.params, r) :=
    bracketed?_eq_some_iff.2 ⟨rfl, h.params⟩
  have hbraces (r : List Lexeme) : bracketed? '\x7b' '\x7d' (l.body ++ r) = some (l.body, r) :=
    bracketed?_eq_some_iff.2 ⟨rfl, h.body⟩
  have hall : l.lexemes ++ rest = l.type :: (l.typeGap ++ l.name :: (l.nameGap
      ++ (l.params ++ (l.paramsGap ++ (l.body ++ rest))))) := by
    simp only [lexemes, List.append_assoc, List.cons_append]
  rw [hall, function?]
  simp only [htypeWord, htypeGap, hnameWord, hnameGap, hparens, hparamsGap, hbraces,
    Option.bind_eq_bind, Option.bind_some]
  rfl

/-- What is found is laid out. -/
theorem exists_of_function? {lexemes rest : List Lexeme} {f : Function}
    (h : function? lexemes = some (f, rest)) :
    ∃ l : Layout, l.Valid ∧ lexemes = l.lexemes ++ rest ∧ f = l.function := by
  unfold function? at h
  simp only [Option.bind_eq_bind, Option.bind_eq_some_iff, Prod.exists] at h
  obtain ⟨type, typeName, r1, h1, name, nameName, r2, h2, params, r3, h3, body, r4, h4, h5⟩ := h
  obtain ⟨rfl, rfl⟩ := Prod.mk.inj (Option.some.inj h5)
  obtain ⟨rfl, htype, rfl⟩ := plainWord?_eq_some_iff.1 h1
  obtain ⟨hr1, hname, rfl⟩ := plainWord?_eq_some_iff.1 h2
  obtain ⟨hr2, hparams⟩ := bracketed?_eq_some_iff.1 h3
  obtain ⟨hr3, hbody⟩ := bracketed?_eq_some_iff.1 h4
  have hgap (r : List Lexeme) : ∀ g ∈ (afterTrivia r).1, g.isTrivial = true :=
    fun g hg => List.mem_takeWhile_imp hg
  have hsplit (r : List Lexeme) : r = (afterTrivia r).1 ++ (afterTrivia r).2 :=
    List.takeWhile_append_dropWhile.symm
  refine ⟨⟨type, (afterTrivia r1).1, name, (afterTrivia r2).1, params, (afterTrivia r3).1, body⟩,
    ⟨htype, hgap r1, hname, hgap r2, hparams, hgap r3, hbody⟩, ?_, rfl⟩
  -- each rest is its gap and what was read behind it
  calc type :: r1
    _ = type :: ((afterTrivia r1).1 ++ name :: r2) := by rw [← hr1, ← hsplit]
    _ = type :: ((afterTrivia r1).1 ++ name :: ((afterTrivia r2).1 ++ (params ++ r3))) := by
      rw [← hr2, ← hsplit]
    _ = type :: ((afterTrivia r1).1 ++ name :: ((afterTrivia r2).1
          ++ (params ++ ((afterTrivia r3).1 ++ (body ++ r4))))) := by rw [← hr3, ← hsplit]
    _ = _ := by simp only [Layout.lexemes, List.append_assoc, List.cons_append]

end Layout

/-- **A function is found exactly where one is laid out.** -/
theorem function?_eq_some_iff {lexemes rest : List Lexeme} {f : Function} :
    function? lexemes = some (f, rest)
      ↔ ∃ l : Layout, l.Valid ∧ lexemes = l.lexemes ++ rest ∧ f = l.function := by
  constructor
  · exact Layout.exists_of_function?
  · rintro ⟨l, hl, rfl, rfl⟩
    exact Layout.function?_of_valid hl rest

/-! ## The functions of a text -/

theorem partsFrom_function {lexemes after : List Lexeme} {f : Function}
    (h : function? lexemes = some (f, after)) :
    partsFrom 0 lexemes = .function f :: partsFrom 0 after := by
  rcases lexemes with _ | ⟨lexeme, rest⟩
  · cases h
  · rw [partsFrom]
    split
    · rename_i f' after' h'
      rw [if_pos rfl, h] at h'
      obtain ⟨rfl, rfl⟩ := Prod.mk.inj (Option.some.inj h')
      rfl
    · rename_i h'
      rw [if_pos rfl, h] at h'
      cases h'

theorem partsFrom_loose {depth : Nat} {lexeme : Lexeme} {rest : List Lexeme}
    (h : depth = 0 → function? (lexeme :: rest) = none) :
    partsFrom depth (lexeme :: rest)
      = .loose lexeme :: partsFrom (nesting '\x7b' '\x7d' depth lexeme) rest := by
  rw [partsFrom]
  split
  · rename_i hfound
    split at hfound
    · rename_i hdepth
      rw [h hdepth] at hfound
      cases hfound
    · cases hfound
  · rfl

/-- A part of a text with all that it is written with. -/
inductive Cut where
  | function (layout : Layout)
  | loose (lexeme : Lexeme)

namespace Cut

/-- What the part is written with. -/
def lexemes : Cut → List Lexeme
  | .function layout => layout.lexemes
  | .loose lexeme => [lexeme]

/-- The part itself. -/
def part : Cut → Part
  | .function layout => .function layout.function
  | .loose lexeme => .loose lexeme

/-- The layout that the part is, if it is a function. -/
def layout? : Cut → Option Layout
  | .function layout => some layout
  | .loose _ => none

theorem layout?_eq_some_iff {cut : Cut} {l : Layout} :
    cut.layout? = some l ↔ cut = .function l := by
  cases cut <;> simp [layout?]

end Cut

/-- How lexemes are cut at a nesting depth: a function is taken whole at the top level, and where
there is none a lexeme by itself. -/
inductive Cuts : Nat → List Lexeme → List Cut → Prop where
  | nil {depth : Nat} : Cuts depth [] []
  | function {layout : Layout} {after : List Lexeme} {cuts : List Cut} (hvalid : layout.Valid)
      (hafter : Cuts 0 after cuts) : Cuts 0 (layout.lexemes ++ after) (.function layout :: cuts)
  | loose {depth : Nat} {lexeme : Lexeme} {rest : List Lexeme} {cuts : List Cut}
      (hnone : depth = 0 → function? (lexeme :: rest) = none)
      (hrest : Cuts (nesting '\x7b' '\x7d' depth lexeme) rest cuts) :
      Cuts depth (lexeme :: rest) (.loose lexeme :: cuts)

/-- Lexemes can be cut at any depth. -/
theorem exists_cuts (depth : Nat) (lexemes : List Lexeme) : ∃ cuts, Cuts depth lexemes cuts := by
  induction depth, lexemes using partsFrom.induct with
  | case1 depth => exact ⟨[], .nil⟩
  | case2 depth lexeme rest f after hfound ih =>
    obtain ⟨cuts, hcuts⟩ := ih
    split at hfound
    · rename_i hdepth
      obtain ⟨l, hl, hparts, -⟩ := function?_eq_some_iff.1 hfound
      rw [hdepth, hparts]
      exact ⟨_, .function hl hcuts⟩
    · cases hfound
  | case3 depth lexeme rest hnone ih =>
    obtain ⟨cuts, hcuts⟩ := ih
    refine ⟨_, .loose (fun hdepth => ?_) hcuts⟩
    rwa [dif_pos hdepth] at hnone

namespace Cuts

variable {depth : Nat} {lexemes : List Lexeme} {cuts : List Cut}

theorem partsFrom_eq (h : Cuts depth lexemes cuts) :
    partsFrom depth lexemes = cuts.map Cut.part := by
  induction h with
  | nil => rw [partsFrom]; rfl
  | function hvalid _ ih =>
    rw [partsFrom_function (Layout.function?_of_valid hvalid _), ih]
    rfl
  | loose hnone _ ih =>
    rw [partsFrom_loose hnone, ih]
    rfl

/-- Nothing is lost. -/
theorem flatMap_lexemes (h : Cuts depth lexemes cuts) : cuts.flatMap Cut.lexemes = lexemes := by
  induction h with
  | nil => rfl
  | function _ _ ih => rw [List.flatMap_cons, ih]; rfl
  | loose _ _ ih => rw [List.flatMap_cons, ih]; rfl

theorem valid (h : Cuts depth lexemes cuts) {l : Layout} (hl : .function l ∈ cuts) : l.Valid := by
  induction h with
  | nil => cases hl
  | function hvalid _ ih =>
    rcases List.mem_cons.1 hl with hl | hl
    · obtain rfl := Cut.function.inj hl
      exact hvalid
    · exact ih hl
  | loose _ _ ih =>
    rcases List.mem_cons.1 hl with hl | hl
    · cases hl
    · exact ih hl

/-- A function stands somewhere among the lexemes. -/
theorem exists_split (h : Cuts depth lexemes cuts) {l : Layout} (hl : .function l ∈ cuts) :
    ∃ before after, lexemes = before ++ (l.lexemes ++ after) := by
  obtain ⟨front, back, rfl⟩ := List.append_of_mem hl
  refine ⟨front.flatMap Cut.lexemes, back.flatMap Cut.lexemes, ?_⟩
  rw [← h.flatMap_lexemes, List.flatMap_append, List.flatMap_cons]
  rfl

end Cuts

theorem gaps_ne_nil (parts : List Part) : gaps parts ≠ [] := by
  cases parts with
  | nil => simp [gaps]
  | cons part rest =>
    cases part with
    | function f => simp [gaps]
    | loose lexeme =>
      rw [gaps]
      split <;> simp

/-- The function that a part is. -/
def Part.function? : Part → Option Function
  | .function f => some f
  | .loose _ => none

theorem map_function_functionsFrom (start : Nat) (parts : List Part) :
    (functionsFrom start parts).map (·.function) = parts.filterMap Part.function? := by
  induction parts generalizing start with
  | nil => rfl
  | cons part rest ih =>
    cases part with
    | function f =>
      rw [functionsFrom, List.map_cons, ih]
      rfl
    | loose lexeme =>
      rw [functionsFrom, ih]
      rfl

theorem functionsOf_eq (text : String) :
    functionsOf text = (parts text.toList).filterMap Part.function? :=
  map_function_functionsFrom 0 _

/-- The functions of a text are those that its cuts lay out. -/
theorem Cuts.functionsOf_eq {text : String} {cuts : List Cut}
    (h : Cuts 0 (lexemes text.toList) cuts) :
    functionsOf text = (cuts.filterMap Cut.layout?).map Layout.function := by
  have hpart : Part.function? ∘ Cut.part = fun cut => cut.layout?.map Layout.function := by
    funext cut
    cases cut <;> rfl
  rw [Glsl.functionsOf_eq, parts, h.partsFrom_eq, List.filterMap_map, hpart, List.map_filterMap]

/-- What a part of a text is laid out with is read the same by itself. -/
theorem lexemes_layout {text : List Char} {l : Layout} (hl : l.Valid) {before after : List Lexeme}
    (h : lexemes text = before ++ (l.lexemes ++ after)) :
    lexemes (textOf l.lexemes) = l.lexemes := by
  obtain ⟨chars, tail, hword⟩ := Layout.exists_word_of_valid hl
  obtain ⟨inner, hlast⟩ := Layout.exists_last_of_valid hl
  exact lexemes_stretch h hword hlast rfl

/-- **Every function of a text is laid out somewhere in it**, and its own text is read so. -/
theorem exists_layout_of_mem_functionsOf {text : String} {f : Function} (h : f ∈ functionsOf text) :
    ∃ l : Layout, l.Valid ∧ f = l.function ∧ lexemes f.text.toList = l.lexemes
      ∧ ∃ before after, lexemes text.toList = before ++ (l.lexemes ++ after) := by
  obtain ⟨cuts, hcuts⟩ := exists_cuts 0 (lexemes text.toList)
  rw [hcuts.functionsOf_eq] at h
  obtain ⟨l, hl, rfl⟩ := List.mem_map.1 h
  obtain ⟨cut, hcut, hlayout⟩ := List.mem_filterMap.1 hl
  obtain rfl := Cut.layout?_eq_some_iff.1 hlayout
  have hvalid := hcuts.valid hcut
  obtain ⟨before, after, hparts⟩ := hcuts.exists_split hcut
  refine ⟨l, hvalid, rfl, ?_, before, after, hparts⟩
  rw [Layout.function, String.toList_ofList, lexemes_layout hvalid hparts]

/-- **The text of a function is scanned as that function**, from its first character to its last. -/
theorem parts_text {text : String} {f : Function} (h : f ∈ functionsOf text) :
    parts f.text.toList = [.function f] := by
  obtain ⟨l, hl, rfl, hread, -⟩ := exists_layout_of_mem_functionsOf h
  have hfound : function? l.lexemes = some (l.function, []) := by
    have hfound := Layout.function?_of_valid hl []
    rwa [List.append_nil] at hfound
  rw [parts, hread, partsFrom_function hfound, partsFrom]

/-- The identifiers of a function are among those of its text. -/
theorem identifiers_subset {text : String} {f : Function} (h : f ∈ functionsOf text) :
    identifiers f.text ⊆ identifiers text := by
  obtain ⟨l, -, -, hread, before, after, hparts⟩ := exists_layout_of_mem_functionsOf h
  rw [identifiers, identifiers, hread, hparts, List.filterMap_append, List.filterMap_append]
  refine List.map_subset _ (List.subset_append_of_subset_right _ ?_)
  exact List.subset_append_left _ _

theorem functionsOf_text {text : String} {f : Function} (h : f ∈ functionsOf text) :
    functionsOf f.text = [f] := by
  rw [functionsOf_eq, parts_text h]
  rfl

/-- Functions of one text are one function, wherever they were found. -/
theorem eq_of_text_eq {text text' : String} {f g : Function} (hf : f ∈ functionsOf text)
    (hg : g ∈ functionsOf text') (h : f.text = g.text) : f = g := by
  have hfg : [f] = [g] := by rw [← functionsOf_text hf, ← functionsOf_text hg, h]
  exact List.singleton_inj.1 hfg

end ShaderGraph.Glsl
