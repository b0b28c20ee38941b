import ShaderGraph.Proofs.Declarations
import ShaderGraph.Proofs.Evaluators
import ShaderGraph.Proofs.Reading

/-!
# The texts of evaluators

The text of an evaluator is read as a function: `Evaluator.read?` takes a type, a name and the
parameter `t`, and the statements between the braces. What it reads is the evaluator that the text
was printed from (`Evaluator.read?_textBy`), so running the text means running what is read from it.

The same text defines one function in the sense of the scanner, with the name of the evaluator
(`Evaluator.functionsOf_text`): the braces of its statements are balanced.
-/

namespace ShaderGraph

open Glsl

/-! ## Braces -/

namespace Glsl

/-- Inside braces the lexemes can be passed over: what they open they close. -/
def Neutral (parts : List Lexeme) : Prop :=
  ∀ depth rest, untilClosed '\x7b' '\x7d' (depth + 1) (parts ++ rest)
    = (untilClosed '\x7b' '\x7d' (depth + 1) rest).map fun r => (parts ++ r.1, r.2)

namespace Neutral

variable {xs ys : List Lexeme}

theorem nil : Neutral [] := by
  intro depth rest
  simp

theorem append (hx : Neutral xs) (hy : Neutral ys) : Neutral (xs ++ ys) := by
  intro depth rest
  rw [List.append_assoc, hx, hy, Option.map_map]
  simp [Function.comp_def]

/-- A lexeme that is no brace. -/
theorem cons {lexeme : Lexeme} (h : lexeme ≠ mark '\x7b' ∧ lexeme ≠ mark '\x7d')
    (hx : Neutral xs) : Neutral (lexeme :: xs) := by
  intro depth rest
  have hopen : lexeme.isMark '\x7b' = false := by
    simpa [← Lexeme.isMark_iff, mark] using h.1
  have hclose : lexeme.isMark '\x7d' = false := by
    simpa [← Lexeme.isMark_iff, mark] using h.2
  have hnesting : nesting '\x7b' '\x7d' (depth + 1) lexeme = depth + 1 := by
    simp [nesting, hopen, hclose]
  rw [List.cons_append, untilClosed, hnesting, hclose, hx, Option.map_map]
  simp [Function.comp_def]

theorem of_forall (h : ∀ lexeme ∈ xs, lexeme ≠ mark '\x7b' ∧ lexeme ≠ mark '\x7d') :
    Neutral xs := by
  induction xs with
  | nil => exact .nil
  | cons lexeme rest ih =>
    obtain ⟨hfirst, hrest⟩ := List.forall_mem_cons.1 h
    exact .cons hfirst (ih hrest)

/-- Braces around what is neutral. -/
theorem braces (hx : Neutral xs) : Neutral (mark '\x7b' :: (xs ++ [mark '\x7d'])) := by
  intro depth rest
  have hinner := hx (depth + 1) (mark '\x7d' :: rest)
  simp [untilClosed, nesting, mark, Lexeme.isMark] at hinner ⊢
  simp [hinner, Function.comp_def]

theorem enclosed (hx : Neutral xs) :
    Enclosed '\x7b' '\x7d' (mark '\x7b' :: (xs ++ [mark '\x7d'])) := by
  have hinner := hx 0 [mark '\x7d']
  refine ⟨_, _, rfl, rfl, ?_⟩
  simp [untilClosed, nesting, mark, Lexeme.isMark] at hinner ⊢
  simp [hinner]

theorem wordOf (text : String) (hx : Neutral xs) : Neutral (wordOf text :: xs) :=
  hx.cons ⟨by simp, by simp⟩

theorem marks {text : String} (h : '\x7b' ∉ text.toList ∧ '\x7d' ∉ text.toList) :
    Neutral (marks text) := by
  refine .of_forall fun lexeme hlexeme => ?_
  obtain ⟨c, hc, rfl⟩ := List.mem_map.1 hlexeme
  simp only [ne_eq, mark_inj]
  exact ⟨fun heq => h.1 (heq ▸ hc), fun heq => h.2 (heq ▸ hc)⟩

end Neutral

variable {α : Type} {write : α → Numeral}

theorem neutral_numeral (n : Numeral) : Neutral (spelledNumeral n) := by
  rw [spelledNumeral]
  refine .append ?_ (.of_forall (by simp))
  split
  · exact .of_forall (by decide)
  · exact .nil

theorem neutral_arguments {arguments : List (List Lexeme)} (h : ∀ part ∈ arguments, Neutral part) :
    Neutral (spelledArguments arguments) := by
  induction arguments with
  | nil => exact .nil
  | cons first rest ih =>
    obtain ⟨hfirst, hrest⟩ := List.forall_mem_cons.1 h
    cases rest with
    | nil => simpa [spelledArguments] using hfirst
    | cons second rest =>
      rw [spelledArguments, List.intercalate_cons_cons, List.append_assoc]
      exact hfirst.append ((Neutral.marks (by decide)).append (ih hrest))

theorem neutral_call (function : String) {arguments : List (List Lexeme)}
    (h : ∀ part ∈ arguments, Neutral part) : Neutral (spelledCall function arguments) :=
  .wordOf function ((Neutral.marks (by decide)).append
    ((neutral_arguments h).append (.marks (by decide))))

theorem neutral_expr (e : Expr α) (least : Nat) : Neutral (e.spelledAt write least) := by
  induction e generalizing least with
  | literal value => exact neutral_numeral _
  | «variable» name => exact .wordOf name .nil
  | operation op left right ihl ihr =>
    have hspace : Neutral (marks " ") := .marks (by decide)
    have hop : Neutral [op.lexeme] := .of_forall (by cases op <;> decide)
    have hinner := (ihl op.strength).append (hspace.append (hop.append (hspace.append
      (ihr (op.strength + 1)))))
    rw [Expr.spelledAt]
    split
    · exact (Neutral.marks (by decide)).append (hinner.append (.marks (by decide)))
    · exact hinner
  | mod a b iha ihb => exact neutral_call _ (by simpa using ⟨iha 0, ihb 0⟩)
  | max a b iha ihb => exact neutral_call _ (by simpa using ⟨iha 0, ihb 0⟩)
  | min a b iha ihb => exact neutral_call _ (by simpa using ⟨iha 0, ihb 0⟩)
  | clamp v lo hi ihv ihlo ihhi => exact neutral_call _ (by simpa using ⟨ihv 0, ihlo 0, ihhi 0⟩)
  | mix a b w iha ihb ihw => exact neutral_call _ (by simpa using ⟨iha 0, ihb 0, ihw 0⟩)

theorem neutral_test (test : Test α) : Neutral (test.spelled write) := by
  induction test with
  | atLeast a b | atMost a b | less a b =>
    exact (neutral_expr a 0).append ((Neutral.marks (by decide)).append (neutral_expr b 0))
  | both first second ih ih' => exact ih.append ((Neutral.marks (by decide)).append ih')

section Margins

variable {margin : String} (hmargin : isMargin margin = true)

include hmargin

theorem neutral_margin : Neutral (marks margin) := by
  have hspace : ∀ c ∈ margin.toList, c = ' ' := fun c hc =>
    beq_iff_eq.1 (List.all_eq_true.1 hmargin c hc)
  exact .marks ⟨fun h => absurd (hspace _ h) (by decide), fun h => absurd (hspace _ h) (by decide)⟩

theorem neutral_block {inside : List Lexeme} (h : Neutral inside) :
    Neutral (spelledBlock margin inside) := by
  have hlines : Neutral (mark '\n' :: (inside ++ marks margin)) :=
    (h.append (neutral_margin hmargin)).cons ⟨by decide, by decide⟩
  have hfeed : Neutral [mark '\n'] := .of_forall (by decide)
  simpa [spelledBlock, marks] using hlines.braces.append hfeed

theorem neutral_choice {test : Test α} {inside outside : List Lexeme} (hinside : Neutral inside)
    (houtside : Neutral outside) : Neutral (spelledChoice write margin test inside outside) :=
  .wordOf "if" ((Neutral.marks (by decide)).append ((neutral_test test).append
    ((Neutral.marks (by decide)).append ((neutral_block hmargin hinside).append houtside))))

end Margins

theorem neutral_assignment (name : String) (value : Expr α) :
    Neutral (spelledAssignment write name value) :=
  .wordOf name ((Neutral.marks (by decide)).append
    ((neutral_expr value 0).append (.marks (by decide))))

mutual

theorem neutral_stmt {margin : String} (hmargin : isMargin margin = true) (s : Stmt α) :
    Neutral (s.spelled write margin) := by
  have hlead := neutral_margin hmargin
  have hspace : Neutral (marks " ") := .marks (by decide)
  cases s with
  | declare name value =>
    exact hlead.append (.wordOf _ (hspace.append (neutral_assignment name value)))
  | assign name value => exact hlead.append (neutral_assignment name value)
  | give value =>
    exact hlead.append (.wordOf _ (hspace.append ((neutral_expr value 0).append
      (.marks (by decide)))))
  | choose test body otherwise =>
    exact hlead.append (neutral_choice hmargin (neutral_all (isMargin_deeper hmargin) body)
      (neutral_alternative hmargin otherwise))

theorem neutral_all {margin : String} (hmargin : isMargin margin = true)
    (body : List (Stmt α)) : Neutral (spelledAll write margin body) := by
  cases body with
  | nil => exact .nil
  | cons s rest => exact (neutral_stmt hmargin s).append (neutral_all hmargin rest)

theorem neutral_alternative {margin : String} (hmargin : isMargin margin = true)
    (otherwise : List (Stmt α)) : Neutral (spelledAlternative write margin otherwise) := by
  have hdeeper := isMargin_deeper hmargin
  have hspace : Neutral (marks " ") := .marks (by decide)
  cases otherwise with
  | nil => exact .nil
  | cons s rest =>
    have hblock := (neutral_margin hmargin).append (.wordOf "else" (hspace.append
      (neutral_block hmargin ((neutral_stmt hdeeper s).append (neutral_all hdeeper rest)))))
    cases s with
    | declare | assign | give => exact hblock
    | choose test body otherwise =>
      cases rest with
      | nil =>
        exact (neutral_margin hmargin).append (.wordOf "else" (hspace.append
          (neutral_choice hmargin (neutral_all hdeeper body)
            (neutral_alternative hmargin otherwise))))
      | cons t rest => exact hblock

end

/-! ## Lines -/

theorem toList_intercalate_concat (lines : List String) (last : String) :
    ("\n".intercalate (lines ++ [last])).toList = feeding lines ++ last.toList := by
  induction lines with
  | nil => simp [feeding]
  | cons line rest ih =>
    rw [List.cons_append, String.intercalate_cons_of_ne_nil (by simp)]
    simp [feeding, ih]

end Glsl

namespace Evaluator

variable {α β : Type}

/-- An evaluator with its literals replaced. -/
def map (f : α → β) (e : Evaluator α) : Evaluator β := ⟨e.name, mapAll f e.body⟩

/-- The literals of an evaluator. -/
def literals (e : Evaluator α) : List α := literalsOf e.body

/-- The evaluator that a text defines: a function from the float `t` to a float, and nothing behind
it. -/
def read? (text : String) : Option (Evaluator Numeral) := do
  let parts := lexemes text.toList
  let rest ← expect? (wordOf "float") parts
  let (name, rest) ← readName rest
  let rest ← expect? (mark '(') rest
  let rest ← expect? (wordOf "float") rest
  let rest ← expect? (wordOf "t") rest
  let rest ← expect? (mark ')') rest
  let rest ← expect? (mark '\x7b') rest
  let (body, rest) ← readStmts (2 * parts.length) rest
  if skip rest = [] then some ⟨name, body⟩ else none

/-- Literals that are given back give the evaluator back. -/
theorem map_map_of_literals {f : α → β} {g : β → α} {e : Evaluator α}
    (h : ∀ x ∈ e.literals, g (f x) = x) : (e.map f).map g = e := by
  rw [map, map, mapAll_mapAll_of_literals h]

variable {write : α → Numeral} {e : Evaluator α}

/-- The lexemes of the body of an evaluator, between its braces. -/
def spelledBody (write : α → Numeral) (e : Evaluator α) : List Lexeme :=
  mark '\n' :: spelledAll write "    " e.body

/-- The lexemes of the parameter `t`. -/
def spelledParameter : List Lexeme := [mark '(', wordOf "float", mark ' ', wordOf "t", mark ')']

/-- How the text of an evaluator is laid out. -/
def layout (write : α → Numeral) (e : Evaluator α) : Layout where
  type := wordOf "float"
  typeGap := marks " "
  name := wordOf e.name
  nameGap := []
  params := spelledParameter
  paramsGap := marks " "
  body := mark '\x7b' :: (e.spelledBody write ++ [mark '\x7d'])

/-- The name is an identifier, and so are those of all variables. -/
def WellNamed (e : Evaluator α) : Prop := IsName e.name ∧ WellNamedAll e.body

/-- **The lexemes of a printed evaluator.** -/
theorem lexemes_textBy (hwrite : ∀ x, (write x).IsFloat) (h : e.WellNamed) :
    lexemes (e.textBy (literalText write)).toList = (e.layout write).lexemes := by
  have hfloat : Spells "float".toList [wordOf "float"] := ⟨by decide, by decide⟩
  have ht : Spells "t".toList [wordOf "t"] := ⟨by decide, by decide⟩
  have hclosing : Spells "\x7d".toList [mark '\x7d'] := ⟨by decide, by decide⟩
  have hheader := (hfloat.leads " " (by decide)).append ((h.1.spells.leads "(" (by decide)).append
    ((hfloat.leads " " (by decide)).append (ht.leads ") \x7b\n" (by decide))))
  have hbody := leads_linesOf hwrite (show isMargin "    " = true by decide) h.2
  have htext := hheader _ _ (hbody _ _ hclosing)
  rw [textBy, toList_intercalate_concat]
  simpa [feeding, layout, spelledBody, spelledParameter, Layout.lexemes, marks]
    using htext.lexemes_eq

/-- **A printed evaluator reads back.** -/
theorem read?_textBy (hwrite : ∀ x, (write x).IsFloat) (h : e.WellNamed) :
    read? (e.textBy (literalText write)) = some (e.map write) := by
  have hlexemes : lexemes (e.textBy (literalText write)).toList = wordOf "float" :: mark ' '
      :: wordOf e.name :: mark '(' :: wordOf "float" :: mark ' ' :: wordOf "t" :: mark ')'
      :: mark ' ' :: mark '\x7b' :: mark '\n'
      :: (spelledAll write "    " e.body ++ [mark '\x7d']) := by
    simp [lexemes_textBy hwrite h, layout, spelledBody, spelledParameter, Layout.lexemes, marks]
  have hbody : ReadsBlock (2 * (lexemes (e.textBy (literalText write)).toList).length)
      (spelledAll write "    " e.body) (mapAll write e.body) := by
    refine readsBlock_spelled hwrite (by decide) h.2 ?_
    simp [hlexemes]
    omega
  have hread := hbody [mark '\x7d'] [] (by decide)
  simp only [read?]
  generalize 2 * (lexemes (e.textBy (literalText write)).toList).length = levels at hread ⊢
  simp [hlexemes, expect?, readName, name?_of_isName h.1, Lexeme.isSpace, readStmts_lineFeed,
    hread, map]

/-- **The text of an evaluator defines one function**, from a float to a float, under the name of
the evaluator. -/
theorem functionsOf_textBy (hwrite : ∀ x, (write x).IsFloat) (h : e.WellNamed)
    (hname : e.name ∉ reservedWords) :
    functionsOf (e.textBy (literalText write))
      = [⟨"float", e.name, ["float"], e.textBy (literalText write)⟩] := by
  have hgap : ∀ g ∈ marks " ", g.isTrivial = true := by decide
  have hvalid : (e.layout write).Valid :=
    { type := ⟨_, rfl, by decide, by decide⟩
      typeGap := hgap
      name := ⟨_, rfl, (Bool.and_eq_true_iff.1 h.1.1).1, by simpa using hname⟩
      nameGap := by simp [layout]
      params := Balanced.enclosed (by decide) (show Balanced '(' ')' spelledParameter by decide)
      paramsGap := hgap
      body := Neutral.enclosed ((neutral_all (by decide) e.body).cons ⟨by decide, by decide⟩) }
  have hlexemes := lexemes_textBy hwrite h
  have hfound : function? (lexemes (e.textBy (literalText write)).toList)
      = some ((e.layout write).function, []) := by
    rw [hlexemes, ← List.append_nil (e.layout write).lexemes]
    exact Layout.function?_of_valid hvalid []
  have hfunction : (e.layout write).function
      = ⟨"float", e.name, ["float"], e.textBy (literalText write)⟩ := by
    have htypes : paramTypes (spelledParameter.drop 1).dropLast = ["float"] := by decide
    rw [Layout.function, ← hlexemes, (reads_lexemes _).2, String.ofList_toList]
    simp only [layout, htypes, wordOf, Lexeme.chars, String.ofList_toList]
  rw [functionsOf_eq, parts, partsFrom_function hfound, partsFrom, hfunction]
  rfl

end Evaluator

/-! ## The evaluators of lanes -/

namespace Symbol

theorem head?_evaluator (laneId : String) : (evaluator laneId).toList.head? = some 'a' := by
  simp [evaluator]

theorem isIdentifier_evaluator (laneId : String) :
    Text.isIdentifier (evaluator laneId).toList = true := by
  have hword : (evaluator laneId).toList.all Text.isWordChar = true := by
    have hfront : "automation_".toList.all Text.isWordChar = true := by decide
    have hclean : (clean laneId).toList.all Text.isWordChar = true :=
      List.all_eq_true.2 fun c hc => isWordChar_of_mem_clean hc
    rw [evaluator, String.toList_append, List.all_append, hfront, hclean]
    rfl
  rw [Text.isIdentifier, hword, Bool.and_true, evaluator]
  simp only [String.toList_append]
  rfl

/-- The name of an evaluator is none of the words that start with another letter. -/
theorem evaluator_not_mem (laneId : String) {words : List String}
    (h : (words.all fun word => word.toList.head? != some 'a') = true) :
    evaluator laneId ∉ words := by
  intro hmem
  have hne := List.all_eq_true.1 h _ hmem
  rw [head?_evaluator] at hne
  cases hne

theorem isName_evaluator (laneId : String) : IsName (evaluator laneId) :=
  ⟨isIdentifier_evaluator laneId, evaluator_not_mem laneId (by decide)⟩

end Symbol

namespace Evaluator

variable {α : Type} [Scalar α]

/-- The variables that evaluators use. -/
theorem isName_of_mem {name : String} (h : name ∈ ["t", "localT", "v", "s", "s2", "s3"]) :
    IsName name := by
  revert name
  decide

theorem wellNamedAll_segmentBody (interpolation : Interpolation) (g : Segment α) :
    WellNamedAll (segmentBody interpolation g) := by
  cases interpolation <;> simp [segmentBody, share, cubic, progress, WellNamedAll, Stmt.WellNamed,
    Expr.WellNamed, isName_of_mem]

theorem wellNamedAll_segmentChain (interpolation : Interpolation) (gs : List (Segment α)) :
    WellNamedAll (segmentChain interpolation gs) := by
  induction gs with
  | nil => trivial
  | cons g rest ih =>
    rw [segmentChain]
    split
    · exact ih
    · exact ⟨⟨⟨isName_of_mem (by simp), trivial⟩, wellNamedAll_segmentBody interpolation g, ih⟩,
        trivial⟩

theorem wellNamedAll_curveBody (min max : Option α) (curve : Curve α) :
    WellNamedAll (curveBody min max curve) := by
  have hchain := @wellNamedAll_segmentChain α _ curve.interpolation
  have hclamped {value : Expr α} (h : value.WellNamed) : (clamped min max value).WellNamed := by
    rcases min with _ | lo <;> rcases max with _ | hi <;> simp [clamped, Expr.WellNamed, h]
  have hv : IsName "v" := isName_of_mem (by simp)
  rw [curveBody]
  split
  · exact ⟨hclamped trivial, trivial⟩
  · exact ⟨⟨hv, trivial⟩, ⟨⟨isName_of_mem (by simp), trivial⟩, ⟨⟨hv, trivial⟩, trivial⟩, hchain _⟩,
      hclamped hv, trivial⟩

theorem wellNamed_regionBlock (min max : Option α) (r : Region α) :
    (regionBlock min max r).WellNamed := by
  refine ⟨?_, ⟨⟨isName_of_mem (by simp), ?_⟩, wellNamedAll_curveBody min max r.curve⟩, trivial⟩
  · rw [regionTest]
    split <;> simp [Test.WellNamed, Test.IsComparison, Expr.WellNamed, time, isName_of_mem]
  · rw [regionTime]
    split <;> simp [Expr.WellNamed, time, isName_of_mem]

theorem wellNamed_ofLane (lane : Lane α) (min max : Option α) :
    (ofLane lane min max).WellNamed := by
  refine ⟨Symbol.isName_evaluator lane.id, ?_⟩
  rw [ofLane]
  generalize lane.regions.filter (·.hasDuration) = regions
  induction regions with
  | nil => exact ⟨trivial, trivial⟩
  | cons r rest ih => exact ⟨wellNamed_regionBlock min max r, ih⟩

/-- What is read from the text of a lane on doubles is its evaluator, each number as the literal
that is written for it. -/
theorem read?_text (lane : Lane Float) (min max : Option Float) :
    read? (ofLane lane min max).text = some ((ofLane lane min max).map Glsl.numeral) :=
  read?_textBy isFloat_numeral (wellNamed_ofLane lane min max)

/-- The text of a lane on doubles defines its evaluator. -/
theorem functionsOf_text (lane : Lane Float) (min max : Option Float) :
    functionsOf (ofLane lane min max).text
      = [⟨"float", Symbol.evaluator lane.id, ["float"], (ofLane lane min max).text⟩] :=
  functionsOf_textBy isFloat_numeral (wellNamed_ofLane lane min max)
    (Symbol.evaluator_not_mem lane.id (by decide))

end Evaluator

/-- The number that a numeral denotes. -/
def Numeral.value (n : Numeral) : Rat := (if n.negative then -1 else 1) * n.toDecimal.value

/-- A curve that rises steeply for half a billionth of its region, and goes on from there. -/
def Curve.steep : Curve Rat := ⟨.linear, [⟨0, 0⟩, ⟨1 / 2000000000, 1⟩, ⟨1, 3⟩]⟩

/-- A lane that plays the curve once. -/
def Lane.steep : Lane Rat := ⟨"steep", "n", "gain", [⟨0, 1, false, .steep⟩]⟩

/-- The decimals that the lane needs, and zero for all other numbers. -/
def Lane.steepNumeral (x : Rat) : Numeral :=
  if x = 1 / 2000000000 then ⟨false, ['0'], "0000000005".toList, []⟩
  else if x = 1999999999 / 2000000000 then ⟨false, ['0'], "9999999995".toList, []⟩
  else if x = 1 then ⟨false, ['1'], ['0'], []⟩
  else if x = 2 then ⟨false, ['2'], ['0'], []⟩
  else if x = 3 then ⟨false, ['3'], ['0'], []⟩
  else ⟨false, ['0'], ['0'], []⟩

theorem Lane.isFloat_steepNumeral (x : Rat) : (steepNumeral x).IsFloat := by
  have hdigits {digits : List Char} (h : digits.all Char.isDigit = true) :
      ∀ c ∈ digits, c.isDigit = true := List.all_eq_true.1 h
  unfold steepNumeral
  split_ifs <;> exact ⟨⟨by decide, hdigits (by decide)⟩, ⟨by decide, hdigits (by decide)⟩,
    hdigits (by decide)⟩

theorem Curve.sortedKeys_steep : steep.sortedKeys = steep.keys :=
  List.mergeSort_of_pairwise (by decide +kernel)

theorem Curve.segments_steep : segments steep.sortedKeys =
    [⟨⟨0, 0⟩, ⟨1 / 2000000000, 1⟩, 0, 3⟩,
      ⟨⟨1 / 2000000000, 1⟩, ⟨1, 3⟩, 3, 4000000000 / 1999999999⟩] := by
  have hslopes : slopes steep.keys = [0, 3, 4000000000 / 1999999999] := by decide +kernel
  rw [sortedKeys_steep, segments, hslopes]
  rfl

theorem Lane.literals_steep : ∀ x ∈ (Evaluator.ofLane steep none (some 2)).literals,
    (steepNumeral x).value = x := by
  have hregion : Evaluator.regionBlock none (some 2) ⟨0, 1, false, .steep⟩ = .choose
      (Evaluator.regionTest ⟨0, 1, false, .steep⟩)
      (.declare "localT" (Evaluator.regionTime ⟨0, 1, false, .steep⟩) ::
        Evaluator.curveBody none (some 2) .steep) [] := rfl
  have hcurve : Evaluator.curveBody none (some 2) .steep =
      [.declare "v" (.literal 3),
       .choose (.atMost Evaluator.progress (.literal 0)) [.assign "v" (.literal 0)]
        (Evaluator.segmentChain .linear (segments Curve.steep.keys)),
       .give (Evaluator.clamped none (some 2) Evaluator.current)] := by
    unfold Evaluator.curveBody
    rw [Curve.sortedKeys_steep]
    rfl
  have hbody : (Evaluator.ofLane steep none (some 2)).body
      = [Evaluator.regionBlock none (some 2) ⟨0, 1, false, .steep⟩, .give (.literal 0)] := by
    rfl
  rw [Evaluator.literals, hbody, hregion, hcurve]
  decide +kernel

end ShaderGraph
