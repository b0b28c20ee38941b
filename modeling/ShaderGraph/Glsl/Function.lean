import ShaderGraph.Glsl.Lexis
import ShaderGraph.Text.Blank

/-!
# Functions in shader code

A function is a type, a name, a list of parameters in parentheses and a body in braces, at the top
level of a text. `scan` cuts a text into its functions and the rest, the preamble. Only code counts:
braces and parentheses inside comments and strings are passed over.

A word that cannot be a type or a name, such as `return` or `struct`, starts no function, and
nothing is asked of the text otherwise; what does not look like a function is preamble.
-/

namespace ShaderGraph.Glsl

/-- Words that are neither types nor names of functions. -/
def reservedWords : List String :=
  ["return", "if", "else", "for", "while", "do", "switch", "case", "define", "ifdef", "ifndef",
   "elif", "endif", "undef", "struct", "layout", "precision", "uniform", "const", "in", "out",
   "inout"]

/-- Words that may stand before the type of a parameter. -/
def paramQualifiers : List String := ["in", "out", "inout", "const", "highp", "mediump", "lowp"]

/-- A function as defined. -/
structure Function where
  returnType : String
  name : String
  paramTypes : List String
  text : String
deriving DecidableEq, Repr

/-- What tells functions apart: return type, name and parameter types, joined by underscores. -/
def Function.signature (f : Function) : String :=
  "_".intercalate (f.returnType :: f.name :: f.paramTypes)

/-! ## Parameters -/

/-- A character of a parameter list: what is not code reads as a space. -/
def paramChar (cell : Cell) : Char := if cell.isCode then cell.char else ' '

/-- The code of a parameter list. -/
def paramCode (lexemes : List Lexeme) : List Char :=
  lexemes.flatMap fun
    | .word chars => chars
    | .other cell => [paramChar cell]

/-- The type of one parameter: the first word that is no qualifier, up to a bracket. -/
def paramType? (param : List Char) : Option String :=
  match (Text.words param).find? fun w => !paramQualifiers.contains (String.ofList w) with
  | none => none
  | some word =>
    let type := String.ofList (word.takeWhile (· != '['))
    if type = "void" || type = "" then none else some type

/-- The types in a parameter list. -/
def paramTypes (lexemes : List Lexeme) : List String :=
  ((paramCode lexemes).splitOn ',').filterMap paramType?

/-! ## Recognising a function -/

/-- How many marks are open after a lexeme. A closing mark with none open counts for none. -/
def nesting (opening closing : Char) (depth : Nat) (lexeme : Lexeme) : Nat :=
  if lexeme.isMark opening then depth + 1
  else if lexeme.isMark closing then depth - 1
  else depth

/-- Splits lexemes after the mark that closes the first one opened, given how many are open. -/
def untilClosed (opening closing : Char) : Nat → List Lexeme → Option (List Lexeme × List Lexeme)
  | _, [] => none
  | depth, lexeme :: rest =>
    if lexeme.isMark closing && nesting opening closing depth lexeme == 0 then
      some ([lexeme], rest)
    else
      (untilClosed opening closing (nesting opening closing depth lexeme) rest).map fun r =>
        (lexeme :: r.1, r.2)

/-- Splits lexemes after those that say nothing. -/
def afterTrivia (lexemes : List Lexeme) : List Lexeme × List Lexeme :=
  (lexemes.takeWhile Lexeme.isTrivial, lexemes.dropWhile Lexeme.isTrivial)

/-- An identifier that is not reserved, at the start of lexemes. -/
def plainWord? : List Lexeme → Option (Lexeme × String × List Lexeme)
  | [] => none
  | lexeme :: rest =>
    match lexeme.identifier? with
    | none => none
    | some chars =>
      let word := String.ofList chars
      if reservedWords.contains word then none else some (lexeme, word, rest)

/-- A bracketed part at the start of lexemes, with its closing mark. -/
def bracketed? (opening closing : Char) (lexemes : List Lexeme) :
    Option (List Lexeme × List Lexeme) :=
  match lexemes with
  | [] => none
  | lexeme :: _ => if lexeme.isMark opening then untilClosed opening closing 0 lexemes else none

/-- The function that lexemes start with, and the lexemes after it. -/
def function? (lexemes : List Lexeme) : Option (Function × List Lexeme) := do
  let (typeLexeme, returnType, rest) ← plainWord? lexemes
  let (gap1, rest) := afterTrivia rest
  let (nameLexeme, name, rest) ← plainWord? rest
  let (gap2, rest) := afterTrivia rest
  let (params, rest) ← bracketed? '(' ')' rest
  let (gap3, rest) := afterTrivia rest
  let (body, rest) ← bracketed? '\x7b' '\x7d' rest
  let text := typeLexeme :: gap1 ++ nameLexeme :: gap2 ++ params ++ gap3 ++ body
  let inner := (params.drop 1).dropLast
  return (⟨returnType, name, paramTypes inner, String.ofList (textOf text)⟩, rest)

theorem length_untilClosed {opening closing : Char} {depth : Nat}
    {lexemes inside rest : List Lexeme}
    (h : untilClosed opening closing depth lexemes = some (inside, rest)) :
    rest.length < lexemes.length := by
  induction lexemes generalizing depth inside with
  | nil => simp [untilClosed] at h
  | cons lexeme tail ih =>
    rw [untilClosed] at h
    split at h
    · obtain ⟨-, rfl⟩ := by simpa using h
      simp
    · obtain ⟨r, hr, he⟩ := Option.map_eq_some_iff.1 h
      obtain ⟨-, rfl⟩ := by simpa using he
      exact Nat.lt_succ_of_lt (ih hr)

theorem length_bracketed {opening closing : Char} {lexemes inside rest : List Lexeme}
    (h : bracketed? opening closing lexemes = some (inside, rest)) :
    rest.length < lexemes.length := by
  unfold bracketed? at h
  split at h
  · simp at h
  · split at h
    · exact length_untilClosed h
    · simp at h

theorem length_afterTrivia (lexemes : List Lexeme) :
    (afterTrivia lexemes).2.length ≤ lexemes.length :=
  (List.dropWhile_sublist _).length_le

theorem length_plainWord {lexemes rest : List Lexeme} {lexeme : Lexeme} {word : String}
    (h : plainWord? lexemes = some (lexeme, word, rest)) : rest.length < lexemes.length := by
  unfold plainWord? at h
  split at h
  · simp at h
  · split at h
    · simp at h
    · simp only at h
      split at h
      · simp at h
      · obtain ⟨-, -, rfl⟩ := by simpa using h
        simp

/-- A function uses up a part of the lexemes. -/
theorem length_function {lexemes rest : List Lexeme} {f : Function}
    (h : function? lexemes = some (f, rest)) : rest.length < lexemes.length := by
  unfold function? at h
  simp only [Option.bind_eq_bind, Option.bind_eq_some_iff, Prod.exists] at h
  obtain ⟨_, _, r1, h1, _, _, r2, h2, _, r3, h3, _, r4, h4, h5⟩ := h
  obtain ⟨-, rfl⟩ := by simpa using h5
  have := length_plainWord h1
  have := length_plainWord h2
  have := length_bracketed h3
  have := length_bracketed h4
  have := length_afterTrivia r1
  have := length_afterTrivia r2
  have := length_afterTrivia r3
  omega

/-! ## Scanning a text -/

/-- A part of a text: a function, or a lexeme of the preamble. -/
inductive Part where
  | function (f : Function)
  | loose (lexeme : Lexeme)

/-- The parts of a text at a nesting depth. Functions start at the top level only. -/
def partsFrom (depth : Nat) (lexemes : List Lexeme) : List Part :=
  match lexemes with
  | [] => []
  | lexeme :: rest =>
    match _h : (if depth = 0 then function? (lexeme :: rest) else none) with
    | some (f, after) => .function f :: partsFrom 0 after
    | none => .loose lexeme :: partsFrom (nesting '\x7b' '\x7d' depth lexeme) rest
termination_by lexemes.length
decreasing_by
  · split at _h
    · exact length_function _h
    · simp at _h
  · simp

/-- The parts of a text. -/
def parts (text : List Char) : List Part := partsFrom 0 (lexemes text)

/-- A function and the byte at which it starts. -/
structure Placed where
  function : Function
  start : Nat
deriving DecidableEq, Repr

/-- The byte after the end of a function. -/
def Placed.stop (p : Placed) : Nat := p.start + p.function.text.utf8ByteSize

/-- The number of bytes of characters. -/
def byteSize (text : List Char) : Nat := text.foldr (fun c size => c.utf8Size + size) 0

/-- The functions among parts that start at a byte. -/
def functionsFrom (start : Nat) : List Part → List Placed
  | [] => []
  | .loose lexeme :: rest => functionsFrom (start + byteSize lexeme.chars) rest
  | .function f :: rest => ⟨f, start⟩ :: functionsFrom (start + f.text.utf8ByteSize) rest

/-- The stretches of text between functions. -/
def gaps : List Part → List (List Char)
  | [] => [[]]
  | .function _ :: rest => [] :: gaps rest
  | .loose lexeme :: rest =>
    match gaps rest with
    | [] => [lexeme.chars]
    | gap :: more => (lexeme.chars ++ gap) :: more

/-- A text cut into functions and preamble. -/
structure Source where
  preamble : String
  functions : List Placed
deriving DecidableEq, Repr

/-- Cuts a text. The preamble is the text between functions, trimmed, one piece to a line. -/
def scan (text : String) : Source :=
  let parts := parts text.toList
  let pieces := ((gaps parts).map Text.trim).filter fun piece => !piece.isEmpty
  ⟨String.ofList (['\n'].intercalate pieces), functionsFrom 0 parts⟩

/-- The functions of a text. -/
def functionsOf (text : String) : List Function :=
  (scan text).functions.map (·.function)

end ShaderGraph.Glsl
