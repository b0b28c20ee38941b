import ShaderGraph.Decimal.Numeral

/-!
# JSON values and their text

A value keeps what its text says: numbers as numerals, members of an object in their order with
repeated names. A string literal can be well formed and still denote no text, when its escapes
leave half of a surrogate pair alone; such a literal is the value `string none`.

`Json.compact` writes a value without blanks, `Json.pretty` one item to a line. Characters are
written as they are except the quote, the backslash and the control characters below the space.
-/

namespace ShaderGraph

/-- A JSON value as written. -/
inductive Json where
  | null
  | bool (value : Bool)
  | number (numeral : Numeral)
  | string (text : Option String)
  | array (items : List Json)
  | object (members : List (Option String × Json))
deriving Inhabited

namespace Json

/-- The string value of a text. -/
def ofText (text : String) : Json := .string (some text)

/-- The array of texts. -/
def ofTexts (texts : List String) : Json := .array (texts.map ofText)

/-- The object with the given members. -/
def record (members : List (String × Json)) : Json :=
  .object (members.map fun m => (some m.1, m.2))

/-- The null value or the value of a text. -/
def ofText? : Option String → Json
  | none => .null
  | some text => .ofText text

/-- The numeral of a natural number. -/
def ofNat (n : Nat) : Json := .number ⟨false, Nat.toDigits 10 n, [], []⟩

/-- Where the exponent of the first digit allows it, numbers are written positionally. -/
def plainExponents (e : Int) : Bool := -5 ≤ e && e ≤ 15

/-- An exponent with its sign, also where it is positive. -/
def signedExponent (e : Int) : List Char :=
  (if e < 0 then '-' else '+') :: Nat.toDigits 10 e.natAbs

/-- The numeral for a finite number: the fewest digits that read back, of two equally near ones the
even one. A positional numeral has a fraction, a scientific one only as its digits need it. -/
def numeralOf (negative : Bool) (magnitude : Binary) : Numeral :=
  let d := magnitude.shortest .toEven
  if d.digits = 0 then ⟨negative, ['0'], ['0'], []⟩
  else if plainExponents d.leadingExponent then (Numeral.positional negative d).withFraction
  else Numeral.scientific negative d (signedExponent d.leadingExponent)

/-- The value of a double. What is not finite has no numeral and is written as null. -/
def ofFloat (x : Float) : Json :=
  match Double.ofFloat x with
  | .finite negative magnitude => .number (numeralOf negative magnitude)
  | _ => .null

/-! ## Text of strings -/

/-- The hexadecimal digit of a number below sixteen, in lower case. -/
def hexDigit (n : Nat) : Char :=
  if n < 10 then Char.ofNat ('0'.toNat + n) else Char.ofNat ('a'.toNat + (n - 10))

/-- One character inside a string literal. -/
def escape (c : Char) : List Char :=
  if c = '"' then ['\\', '"']
  else if c = '\\' then ['\\', '\\']
  else if c = '\n' then ['\\', 'n']
  else if c = '\r' then ['\\', 'r']
  else if c = '\t' then ['\\', 't']
  else if c = '\x08' then ['\\', 'b']
  else if c = '\x0c' then ['\\', 'f']
  else if c.toNat < 0x20 then
    ['\\', 'u', '0', '0', hexDigit (c.toNat / 16), hexDigit (c.toNat % 16)]
  else [c]

/-- A string literal. A literal that denotes no text is written as half a surrogate pair. -/
def quoted : Option String → List Char
  | some text => '"' :: (text.toList.flatMap escape ++ ['"'])
  | none => ['"', '\\', 'u', 'd', '8', '0', '0', '"']

/-! ## Compact text -/

mutual

/-- The characters of a value without blanks. -/
def compact : Json → List Char
  | .null => ['n', 'u', 'l', 'l']
  | .bool true => ['t', 'r', 'u', 'e']
  | .bool false => ['f', 'a', 'l', 's', 'e']
  | .number n => n.text
  | .string text => quoted text
  | .array items => '[' :: compactItems items
  | .object members => '\x7b' :: compactMembers members

/-- The items of an array and its closing bracket. -/
def compactItems : List Json → List Char
  | [] => [']']
  | [item] => compact item ++ [']']
  | item :: rest => compact item ++ ',' :: compactItems rest

/-- The members of an object and its closing brace. -/
def compactMembers : List (Option String × Json) → List Char
  | [] => ['\x7d']
  | [(name, value)] => quoted name ++ ':' :: (compact value ++ ['\x7d'])
  | (name, value) :: rest => quoted name ++ ':' :: (compact value ++ ',' :: compactMembers rest)

end

/-! ## Text with one item to a line -/

/-- A line break and the indentation of a nesting depth, two spaces to a level. -/
def breakLine (depth : Nat) : List Char := '\n' :: List.replicate (2 * depth) ' '

mutual

/-- The characters of a value at a nesting depth, one item to a line. -/
def prettyAt (depth : Nat) : Json → List Char
  | .null => ['n', 'u', 'l', 'l']
  | .bool true => ['t', 'r', 'u', 'e']
  | .bool false => ['f', 'a', 'l', 's', 'e']
  | .number n => n.text
  | .string text => quoted text
  | .array [] => ['[', ']']
  | .array (item :: rest) => '[' :: prettyItems depth (item :: rest)
  | .object [] => ['\x7b', '\x7d']
  | .object (member :: rest) => '\x7b' :: prettyMembers depth (member :: rest)

/-- The items of an array, each on its own line, and the closing bracket. -/
def prettyItems (depth : Nat) : List Json → List Char
  | [] => [']']
  | [item] => breakLine (depth + 1) ++ prettyAt (depth + 1) item ++ breakLine depth ++ [']']
  | item :: rest =>
    breakLine (depth + 1) ++ prettyAt (depth + 1) item ++ ',' :: prettyItems depth rest

/-- The members of an object, each on its own line, and the closing brace. -/
def prettyMembers (depth : Nat) : List (Option String × Json) → List Char
  | [] => ['\x7d']
  | [(name, value)] =>
    breakLine (depth + 1) ++ quoted name ++ ':' :: ' ' :: (prettyAt (depth + 1) value
      ++ breakLine depth ++ ['\x7d'])
  | (name, value) :: rest =>
    breakLine (depth + 1) ++ quoted name ++ ':' :: ' ' :: (prettyAt (depth + 1) value
      ++ ',' :: prettyMembers depth rest)

end

/-- The text of a value without blanks. -/
def text (json : Json) : String := String.ofList json.compact

/-- The text of a value, one item to a line. -/
def prettyText (json : Json) : String := String.ofList (prettyAt 0 json)

end Json

end ShaderGraph
