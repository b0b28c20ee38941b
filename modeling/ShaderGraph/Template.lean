import ShaderGraph.Text.Blank
import ShaderGraph.Text.Word

/-!
# Code templates

A template is code with placeholders. A placeholder is a dollar sign and the longest word after it;
the words `input`, `output` and `param` take a point and a second word along. A dollar sign without
a word is code.

`Template.parse` cuts a text into pieces of code and placeholders, and `Placeholder.spelling` writes
a placeholder as it stood.
-/

namespace ShaderGraph

/-- What a node puts into its code. -/
inductive Placeholder where
  | input (port : String)
  | output (port : String)
  | param (name : String)
  | time
  | resolution
  | position
  | uv
  /-- The distance at the sampled point. -/
  | distance
  /-- The displacement at the sampled point. -/
  | displacement
  | unknown (word : String)
deriving DecidableEq

namespace Placeholder

/-- How a placeholder is written. -/
def spelling : Placeholder → String
  | .input port => "$input." ++ port
  | .output port => "$output." ++ port
  | .param name => "$param." ++ name
  | .time => "$time"
  | .resolution => "$resolution"
  | .position => "$position"
  | .uv => "$uv"
  | .distance => "$sdf_call"
  | .displacement => "$displacement_at_p"
  | .unknown word => "$" ++ word

/-- The placeholder of a word by itself. -/
def ofWord (word : List Char) : Placeholder :=
  let word := String.ofList word
  if word = "time" then .time
  else if word = "resolution" then .resolution
  else if word = "position" then .position
  else if word = "uv" then .uv
  else if word = "sdf_call" then .distance
  else if word = "displacement_at_p" then .displacement
  else .unknown word

/-- The placeholder of a word with a name after a point, for the words that take one. -/
def ofNamed? (word name : List Char) : Option Placeholder :=
  let word := String.ofList word
  if name.isEmpty then none
  else if word = "input" then some (.input (String.ofList name))
  else if word = "output" then some (.output (String.ofList name))
  else if word = "param" then some (.param (String.ofList name))
  else none

/-- The placeholder that starts with a word, given what follows it, and the rest of the text. -/
def ofRest (word rest : List Char) : Placeholder × List Char :=
  match rest with
  | '.' :: tail =>
    match ofNamed? word (tail.takeWhile Text.isWordChar) with
    | some placeholder => (placeholder, tail.dropWhile Text.isWordChar)
    | none => (ofWord word, rest)
  | _ => (ofWord word, rest)

theorem length_ofRest (word rest : List Char) : (ofRest word rest).2.length ≤ rest.length := by
  unfold ofRest
  split
  · split
    · exact Nat.le_succ_of_le (List.dropWhile_sublist _).length_le
    · exact Nat.le_refl _
  · exact Nat.le_refl _

end Placeholder

/-- A piece of a template. -/
inductive Piece where
  | code (text : List Char)
  | hole (placeholder : Placeholder)
deriving DecidableEq

/-- Code with holes in it. -/
abbrev Template := List Piece

namespace Template

/-- Puts a character of code in front. -/
def consChar (c : Char) : Template → Template
  | .code text :: rest => .code (c :: text) :: rest
  | pieces => .code [c] :: pieces

/-- The pieces of a list of characters. -/
def parseChars : List Char → Template
  | [] => []
  | c :: rest =>
    let word := rest.takeWhile Text.isWordChar
    if c = '$' ∧ word ≠ [] then
      let found := Placeholder.ofRest word (rest.dropWhile Text.isWordChar)
      .hole found.1 :: parseChars found.2
    else consChar c (parseChars rest)
termination_by text => text.length
decreasing_by
  · have h1 := Placeholder.length_ofRest (rest.takeWhile Text.isWordChar)
      (rest.dropWhile Text.isWordChar)
    have h2 := (List.dropWhile_sublist Text.isWordChar (l := rest)).length_le
    simp only [List.length_cons]
    omega
  · simp

@[simp] theorem parseChars_nil : parseChars [] = [] := by
  rw [parseChars]

/-- A dollar sign and a word give a hole. -/
theorem parseChars_dollar {rest : List Char} (h : rest.takeWhile Text.isWordChar ≠ []) :
    parseChars ('$' :: rest) =
      let found := Placeholder.ofRest (rest.takeWhile Text.isWordChar)
        (rest.dropWhile Text.isWordChar)
      .hole found.1 :: parseChars found.2 := by
  rw [parseChars, if_pos ⟨rfl, h⟩]

/-- Every other character is code. -/
theorem parseChars_char {c : Char} {rest : List Char} (h : c ≠ '$') :
    parseChars (c :: rest) = consChar c (parseChars rest) := by
  rw [parseChars, if_neg fun hc => h hc.1]

/-- The pieces of a text. -/
def parse (text : String) : Template := parseChars text.toList

/-- The placeholders, in order. -/
def placeholders (t : Template) : List Placeholder :=
  t.filterMap fun
    | .hole placeholder => some placeholder
    | .code _ => none

/-- Whether there is nothing in a template but blanks. -/
def isBlank (t : Template) : Bool :=
  t.all fun
    | .code text => text.all Text.isBlank
    | .hole _ => false

/-- Whether a template holds a placeholder. -/
def uses (t : Template) (placeholder : Placeholder) : Bool :=
  t.placeholders.contains placeholder

/-- The text with each hole filled by its own spelling. -/
def spelling (t : Template) : List Char :=
  t.flatMap fun
    | .code text => text
    | .hole placeholder => placeholder.spelling.toList

end Template

end ShaderGraph
