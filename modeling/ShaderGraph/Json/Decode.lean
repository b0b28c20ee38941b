import ShaderGraph.Dict
import ShaderGraph.Json.Reader

/-!
# Decoding JSON

Decoders turn a value into data or refuse it. A record is written as an object whose members may
come in any order, or as an array of its fields in order of declaration with trailing fields left
out. Members that the record does not know are passed over, whatever they hold; a known one given
twice is refused. A field with a default may be absent, but is not null; an optional field may be
either.

A map takes any names and of a repeated one keeps the last value.
-/

namespace ShaderGraph.Json

variable {α : Type}

/-- A decoder of values. -/
abbrev Decoder (α : Type) := Json → Option α

/-- A text. -/
def asText : Decoder String
  | .string text => text
  | _ => none

/-- A truth value. -/
def asBool : Decoder Bool
  | .bool value => some value
  | _ => none

/-- A number that some double is near, as the nearest one. That a package for JSON rounds so is an
assumption on it: read without care for the last place, a number can be one unit off. -/
def asFloat : Decoder Float
  | .number n => n.toFloat?
  | _ => none

/-- A natural number of at most 64 bits, written with digits alone. -/
def asNat : Decoder Nat
  | .number n => n.toNat?.filter (· < Nat.pow 2 64)
  | _ => none

/-- An array, each item decoded alike. -/
def asList (item : Decoder α) : Decoder (List α)
  | .array items => items.mapM item
  | _ => none

/-- An object as a map, each value decoded alike. -/
def asDict (value : Decoder α) : Decoder (Dict α)
  | .object members => do
    let entries ← members.mapM fun m => do return (← m.1, ← value m.2)
    return Dict.ofList entries
  | _ => none

/-- Nothing for null. -/
def asOption (value : Decoder α) : Decoder (Option α)
  | .null => some none
  | json => (value json).map some

/-- One of several alternatives by its name, alone or as the only member of an object, with null. -/
def asChoice (choices : List α) (name : α → String) : Decoder α
  | .string (some text) => choices.find? (name · == text)
  | .object [(some text, .null)] => choices.find? (name · == text)
  | _ => none

/-! ## Records -/

/-- The fields of a record that are present. -/
abbrev Fields := List (String × Json)

/-- The fields of a record with the given names, in order of declaration. -/
def fields (names : List String) : Json → Option Fields
  | .object members => do
    let named ← members.mapM fun m => m.1.map (·, m.2)
    let known := named.filter fun m => names.contains m.1
    if (known.map Prod.fst).Nodup then some known else none
  | .array items => if items.length ≤ names.length then some (names.zip items) else none
  | _ => none

/-- A field that has to be present. -/
def Fields.required (fields : Fields) (name : String) (value : Decoder α) : Option α :=
  (fields.lookup name).bind value

/-- A field that may be absent. -/
def Fields.withDefault (fields : Fields) (name : String) (value : Decoder α) (default : α) :
    Option α :=
  match fields.lookup name with
  | some json => value json
  | none => some default

/-- A field that may be absent or null. -/
def Fields.optional (fields : Fields) (name : String) (value : Decoder α) : Option (Option α) :=
  fields.withDefault name (asOption value) none

/-- A list that may be absent, and is empty then. -/
def Fields.list (fields : Fields) (name : String) (item : Decoder α) : Option (List α) :=
  fields.withDefault name (asList item) []

end ShaderGraph.Json
