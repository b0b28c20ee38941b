import ShaderGraph.Text.Word

/-!
# Code, comments and strings

A small machine tells the characters of shader code from those inside comments and strings. Line
comments end before the line feed, block comments at their closing mark, strings at the next quote
that no backslash precedes. What is not closed goes on to the end of the text.

The machine moves one character at a time and looks one character ahead. Of two characters that
belong together, such as the two of an opening mark or of an escape, the first puts it in a state
that passes over the second.

The cells of a text are its characters, each with a mark that says whether it is code, and lexemes
are cells with the words of the code put together.
-/

namespace ShaderGraph.Glsl

/-- The zones of a text. -/
inductive Zone where
  | code
  | string
  | lineComment
  | blockComment
deriving DecidableEq, Repr

/-- Where the machine stands. -/
inductive State where
  | inside (zone : Zone)
  /-- The next character belongs to the one before it; after it comes the given zone. -/
  | passing (next : Zone)
deriving DecidableEq, Repr

/-- One character, given the one after it: whether it is code, and the state after it. -/
def State.step : State → Char → Option Char → Bool × State
  | .passing zone, _, _ => (false, .inside zone)
  | .inside .code, c, ahead =>
    if c = '/' ∧ ahead = some '/' then (false, .passing .lineComment)
    else if c = '/' ∧ ahead = some '*' then (false, .passing .blockComment)
    else if c = '"' then (false, .inside .string)
    else (true, .inside .code)
  | .inside .string, c, ahead =>
    if c = '\\' ∧ ahead.isSome then (false, .passing .string)
    else if c = '"' then (false, .inside .code)
    else (false, .inside .string)
  | .inside .lineComment, c, _ =>
    if c = '\n' then (true, .inside .code) else (false, .inside .lineComment)
  | .inside .blockComment, c, ahead =>
    if c = '*' ∧ ahead = some '/' then (false, .passing .code)
    else (false, .inside .blockComment)

/-- A character and whether it is code. -/
structure Cell where
  char : Char
  isCode : Bool
deriving DecidableEq, Repr

/-- The cells of a text, from a state on. -/
def cellsFrom (state : State) : List Char → List Cell
  | [] => []
  | c :: rest =>
    let moved := state.step c rest.head?
    ⟨c, moved.1⟩ :: cellsFrom moved.2 rest

/-- The state at the end of a text, from a state on. -/
def stateAfter (state : State) : List Char → State
  | [] => state
  | c :: rest => stateAfter (state.step c rest.head?).2 rest

/-- The cells of a text. -/
def cells (text : List Char) : List Cell := cellsFrom (.inside .code) text

/-- A word of the code, or any other cell. A word may start with a digit. -/
inductive Lexeme where
  | word (chars : List Char)
  | other (cell : Cell)
deriving DecidableEq, Repr

namespace Lexeme

/-- The characters of a lexeme. -/
def chars : Lexeme → List Char
  | .word chars => chars
  | .other cell => [cell.char]

/-- Puts a character in front of a word that lexemes start with, or starts a word. -/
def consWord (c : Char) : List Lexeme → List Lexeme
  | .word chars :: rest => .word (c :: chars) :: rest
  | lexemes => .word [c] :: lexemes

/-- The lexemes of cells. -/
def ofCells : List Cell → List Lexeme
  | [] => []
  | cell :: rest =>
    if cell.isCode && Text.isWordChar cell.char then consWord cell.char (ofCells rest)
    else .other cell :: ofCells rest

/-- The identifier that a lexeme is. -/
def identifier? : Lexeme → Option (List Char)
  | .word chars => if Text.startsIdentifier chars then some chars else none
  | .other _ => none

/-- Whether a lexeme is a given character of the code. -/
def isMark (mark : Char) : Lexeme → Bool
  | .other cell => cell.isCode && cell.char == mark
  | .word _ => false

/-- The blanks that shader code allows between words. -/
def isSpace (c : Char) : Bool := c == ' ' || c == '\t' || c == '\n' || c == '\x0c' || c == '\r'

/-- Whether a lexeme says nothing: it is blank, or inside a comment or a string. -/
def isTrivial : Lexeme → Bool
  | .other cell => !cell.isCode || isSpace cell.char
  | .word _ => false

end Lexeme

/-- The lexemes of a text. -/
def lexemes (text : List Char) : List Lexeme := Lexeme.ofCells (cells text)

/-- The text of lexemes. -/
def textOf (lexemes : List Lexeme) : List Char := lexemes.flatMap Lexeme.chars

/-- The identifiers in the code of a text, in order and with repetitions. -/
def identifiers (text : String) : List String :=
  ((lexemes text.toList).filterMap Lexeme.identifier?).map String.ofList

/-! ## Renaming -/

/-- New names for identifiers. Of several for one name the last counts. -/
abbrev Renaming := List (String × String)

namespace Renaming

/-- What becomes of an identifier. -/
def apply (names : Renaming) (name : String) : String :=
  (names.reverse.lookup name).getD name

/-- What becomes of a lexeme. -/
def applyTo (names : Renaming) (lexeme : Lexeme) : List Char :=
  match lexeme.identifier? with
  | some name => (names.apply (String.ofList name)).toList
  | none => lexeme.chars

/-- A text with the identifiers in its code renamed. -/
def rename (names : Renaming) (text : String) : String :=
  if names.isEmpty then text
  else String.ofList ((lexemes text.toList).flatMap names.applyTo)

end Renaming

end ShaderGraph.Glsl
