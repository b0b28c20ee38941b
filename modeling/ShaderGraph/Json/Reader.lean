import ShaderGraph.Json.Token

/-!
# Reading JSON

The tokens of a text drive a stack machine. A frame is an array or an object that is still open,
and the mode says what may come next. Every token either moves the machine or ends the reading
without a value, and a text is a value when the machine ends with one and no open frame.
-/

namespace ShaderGraph.Json

/-- An array or object still open, its finished parts in reverse order. -/
inductive Frame where
  | array (items : List Json)
  | member (members : List (Option String × Json)) (name : Option String)

/-- What may come next. Just after an opening bracket or brace the closing one may stand too. -/
inductive Mode where
  | value (mayClose : Bool)
  | name (members : List (Option String × Json)) (mayClose : Bool)
  | colon (members : List (Option String × Json)) (name : Option String)
  /-- A value is complete, and what follows it is decided by the innermost frame. -/
  | after (value : Json)

/-- The mode and the open frames, innermost first. -/
structure Reading where
  mode : Mode
  frames : List Frame

/-- The machine before the first token. -/
def Reading.start : Reading := ⟨.value false, []⟩

/-- One token moves the machine, unless it has no place here. -/
def Reading.step (r : Reading) (t : Token) : Option Reading :=
  match r.mode, r.frames, t with
  | .value _, frames, .scalar value => some ⟨.after value, frames⟩
  | .value _, frames, .text content => some ⟨.after (.string content), frames⟩
  | .value _, frames, .beginArray => some ⟨.value true, .array [] :: frames⟩
  | .value _, frames, .beginObject => some ⟨.name [] true, frames⟩
  | .value true, .array [] :: frames, .endArray => some ⟨.after (.array []), frames⟩
  | .name [] true, frames, .endObject => some ⟨.after (.object []), frames⟩
  | .name members _, frames, .text name => some ⟨.colon members name, frames⟩
  | .colon members name, frames, .colon => some ⟨.value false, .member members name :: frames⟩
  | .after value, .array items :: frames, .comma =>
    some ⟨.value false, .array (value :: items) :: frames⟩
  | .after value, .array items :: frames, .endArray =>
    some ⟨.after (.array (value :: items).reverse), frames⟩
  | .after value, .member members name :: frames, .comma =>
    some ⟨.name ((name, value) :: members) false, frames⟩
  | .after value, .member members name :: frames, .endObject =>
    some ⟨.after (.object ((name, value) :: members).reverse), frames⟩
  | _, _, _ => none

/-- Runs the machine over a list of tokens. -/
def Reading.run : Reading → List Token → Option Reading
  | r, [] => some r
  | r, t :: rest => (r.step t).bind fun r => r.run rest

/-- The value that was read, where nothing is left open. -/
def Reading.result? (r : Reading) : Option Json :=
  match r.mode, r.frames with
  | .after value, [] => some value
  | _, _ => none

/-- The value of a list of characters. -/
def parseChars (text : List Char) : Option Json := do
  let tokens ← tokens text
  let reading ← Reading.start.run tokens
  reading.result?

/-- The value of a text. -/
def parse? (text : String) : Option Json := parseChars text.toList

end ShaderGraph.Json
