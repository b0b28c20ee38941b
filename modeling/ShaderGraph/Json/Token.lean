import ShaderGraph.Json.Value

/-!
# JSON tokens

The lexical level of strict JSON: blanks are the space, the tab, the line feed and the carriage
return; numbers have no leading zeros or plus sign and at least one digit on either side of a
point; string literals hold no raw control characters. There are no comments.

A string literal is read into units, each a code point or one half of a surrogate pair, and the
units are then joined into a text.
-/

namespace ShaderGraph.Json

/-- A lexical unit of a JSON text. -/
inductive Token where
  | beginArray
  | endArray
  | beginObject
  | endObject
  | comma
  | colon
  /-- A null, a truth value or a number. -/
  | scalar (value : Json)
  | text (content : Option String)

/-- The blanks between tokens. -/
def isSpace (c : Char) : Bool := c == ' ' || c == '\n' || c == '\t' || c == '\r'

/-! ## Strings -/

/-- The value of a hexadecimal digit, in either case. -/
def hexValue? (c : Char) : Option Nat :=
  if c.isDigit then some (c.toNat - '0'.toNat)
  else if 'a' ≤ c && c ≤ 'f' then some (c.toNat - 'a'.toNat + 10)
  else if 'A' ≤ c && c ≤ 'F' then some (c.toNat - 'A'.toNat + 10)
  else none

/-- The code unit of four hexadecimal digits. -/
def unit? (a b c d : Char) : Option Nat :=
  match hexValue? a, hexValue? b, hexValue? c, hexValue? d with
  | some a, some b, some c, some d => some (((a * 16 + b) * 16 + c) * 16 + d)
  | _, _, _, _ => none

/-- The character of a one-letter escape. -/
def shortEscape? (c : Char) : Option Char :=
  if c = '"' || c = '\\' || c = '/' then some c
  else if c = 'b' then some '\x08'
  else if c = 'f' then some '\x0c'
  else if c = 'n' then some '\n'
  else if c = 'r' then some '\r'
  else if c = 't' then some '\t'
  else none

/-- The units of a string literal after its opening quote, and what follows the closing one. -/
def stringUnits : List Char → Option (List Nat × List Char)
  | [] => none
  | '"' :: rest => some ([], rest)
  | '\\' :: 'u' :: a :: b :: c :: d :: rest =>
    match unit? a b c d, stringUnits rest with
    | some u, some (units, after) => some (u :: units, after)
    | _, _ => none
  | '\\' :: e :: rest =>
    match shortEscape? e, stringUnits rest with
    | some c, some (units, after) => some (c.toNat :: units, after)
    | _, _ => none
  | c :: rest =>
    if c.toNat < 0x20 || c = '\\' then none
    else
      match stringUnits rest with
      | some (units, after) => some (c.toNat :: units, after)
      | none => none

/-- Whether a unit is the first half of a surrogate pair. -/
def isHighHalf (u : Nat) : Bool := 0xD800 ≤ u && u < 0xDC00

/-- Whether a unit is the second half of a surrogate pair. -/
def isLowHalf (u : Nat) : Bool := 0xDC00 ≤ u && u < 0xE000

/-- The characters that units denote, unless half of a pair stands alone. -/
def joinUnits : List Nat → Option (List Char)
  | [] => some []
  | [u] => if isHighHalf u || isLowHalf u then none else some [Char.ofNat u]
  | u :: v :: rest =>
    if isHighHalf u then
      if isLowHalf v then
        (joinUnits rest).map (Char.ofNat (0x10000 + (u - 0xD800) * 0x400 + (v - 0xDC00)) :: ·)
      else none
    else if isLowHalf u then none
    else (joinUnits (v :: rest)).map (Char.ofNat u :: ·)

/-! ## Numbers -/

/-- The digits before the point: a zero alone, or digits that start with none. -/
def wholePart : List Char → Option (List Char × List Char)
  | '0' :: rest => some (['0'], rest)
  | text =>
    let digits := text.takeWhile Char.isDigit
    if digits.isEmpty then none else some (digits, text.dropWhile Char.isDigit)

/-- The digits after a point, none where no point stands. -/
def fractionPart : List Char → Option (List Char × List Char)
  | '.' :: rest =>
    let digits := rest.takeWhile Char.isDigit
    if digits.isEmpty then none else some (digits, rest.dropWhile Char.isDigit)
  | text => some ([], text)

/-- The sign and digits after an exponent mark, which has been read. -/
def exponentDigits (text : List Char) : Option (List Char × List Char) :=
  let sign := (text.take 1).filter fun c => c == '+' || c == '-'
  let rest := text.drop sign.length
  let digits := rest.takeWhile Char.isDigit
  if digits.isEmpty then none else some (sign ++ digits, rest.dropWhile Char.isDigit)

/-- The exponent, none where no mark stands. -/
def exponentPart : List Char → Option (List Char × List Char)
  | 'e' :: rest => exponentDigits rest
  | 'E' :: rest => exponentDigits rest
  | text => some ([], text)

/-- The numeral after an optional minus sign. -/
def unsignedNumeral (negative : Bool) (text : List Char) : Option (Numeral × List Char) := do
  let (whole, rest) ← wholePart text
  let (fraction, rest) ← fractionPart rest
  let (exponent, rest) ← exponentPart rest
  return (⟨negative, whole, fraction, exponent⟩, rest)

/-- The numeral at the start of a text. -/
def numeral : List Char → Option (Numeral × List Char)
  | '-' :: rest => unsignedNumeral true rest
  | text => unsignedNumeral false text

/-! ## Tokens -/

/-- The token at the start of a text without leading blanks. -/
def token : List Char → Option (Token × List Char)
  | '[' :: rest => some (.beginArray, rest)
  | ']' :: rest => some (.endArray, rest)
  | '\x7b' :: rest => some (.beginObject, rest)
  | '\x7d' :: rest => some (.endObject, rest)
  | ',' :: rest => some (.comma, rest)
  | ':' :: rest => some (.colon, rest)
  | '"' :: rest => (stringUnits rest).map fun r => (.text ((joinUnits r.1).map String.ofList), r.2)
  | 'n' :: 'u' :: 'l' :: 'l' :: rest => some (.scalar .null, rest)
  | 't' :: 'r' :: 'u' :: 'e' :: rest => some (.scalar (.bool true), rest)
  | 'f' :: 'a' :: 'l' :: 's' :: 'e' :: rest => some (.scalar (.bool false), rest)
  | text => (numeral text).map fun r => (.scalar (.number r.1), r.2)

theorem stringUnits_length {text rest : List Char} {units : List Nat}
    (h : stringUnits text = some (units, rest)) : rest.length < text.length := by
  fun_induction stringUnits text generalizing units with
  | case1 => simp at h
  | case2 => simp_all
  | case3 a b c d tail u units' after hs hu ih =>
    obtain ⟨-, rfl⟩ := by simpa using h
    have := ih hs
    simp only [List.length_cons]
    omega
  | case4 => simp at h
  | case5 e tail _ c units' after hs he ih =>
    obtain ⟨-, rfl⟩ := by simpa using h
    have := ih hs
    simp only [List.length_cons]
    omega
  | case6 => simp at h
  | case7 => simp at h
  | case8 c tail _ _ _ hc units' after hs ih =>
    obtain ⟨-, rfl⟩ := by simpa using h
    have := ih hs
    simp only [List.length_cons]
    omega
  | case9 => simp at h

theorem length_dropWhile_digits_lt {text : List Char}
    (h : (text.takeWhile Char.isDigit).isEmpty = false) :
    (text.dropWhile Char.isDigit).length < text.length := by
  have hsplit := congrArg List.length
    (List.takeWhile_append_dropWhile (p := Char.isDigit) (l := text))
  have hpos : 0 < (text.takeWhile Char.isDigit).length := by
    cases hd : text.takeWhile Char.isDigit with
    | nil => simp [hd] at h
    | cons => simp
  rw [List.length_append] at hsplit
  omega

theorem wholePart_length {text rest digits : List Char}
    (h : wholePart text = some (digits, rest)) : rest.length < text.length := by
  unfold wholePart at h
  split at h
  · obtain ⟨-, rfl⟩ := by simpa using h
    simp
  · simp only at h
    split at h
    · simp at h
    · rename_i hd
      obtain ⟨-, rfl⟩ := by simpa using h
      exact length_dropWhile_digits_lt (Bool.eq_false_iff.2 hd)

theorem fractionPart_length {text rest digits : List Char}
    (h : fractionPart text = some (digits, rest)) : rest.length ≤ text.length := by
  unfold fractionPart at h
  split at h
  · simp only at h
    split at h
    · simp at h
    · rename_i hd
      obtain ⟨-, rfl⟩ := by simpa using h
      have := length_dropWhile_digits_lt (Bool.eq_false_iff.2 hd)
      simp only [List.length_cons]
      omega
  · obtain ⟨-, rfl⟩ := by simpa using h
    exact Nat.le_refl _

theorem exponentDigits_length {text rest digits : List Char}
    (h : exponentDigits text = some (digits, rest)) : rest.length ≤ text.length := by
  unfold exponentDigits at h
  simp only at h
  split at h
  · simp at h
  · rename_i hd
    obtain ⟨-, rfl⟩ := by simpa using h
    have h1 := length_dropWhile_digits_lt (Bool.eq_false_iff.2 hd)
    have h2 : (text.drop ((text.take 1).filter fun c => c == '+' || c == '-').length).length
        ≤ text.length := by simp
    omega

theorem exponentPart_length {text rest digits : List Char}
    (h : exponentPart text = some (digits, rest)) : rest.length ≤ text.length := by
  unfold exponentPart at h
  split at h
  · exact Nat.le_succ_of_le (exponentDigits_length h)
  · exact Nat.le_succ_of_le (exponentDigits_length h)
  · obtain ⟨-, rfl⟩ := by simpa using h
    exact Nat.le_refl _

theorem unsignedNumeral_length {negative : Bool} {text rest : List Char} {n : Numeral}
    (h : unsignedNumeral negative text = some (n, rest)) : rest.length < text.length := by
  unfold unsignedNumeral at h
  simp only [Option.bind_eq_bind, Option.bind_eq_some_iff, Prod.exists] at h
  obtain ⟨whole, r1, h1, fraction, r2, h2, exponent, r3, h3, h4⟩ := h
  obtain ⟨-, rfl⟩ := by simpa using h4
  have := wholePart_length h1
  have := fractionPart_length h2
  have := exponentPart_length h3
  omega

theorem numeral_length {text rest : List Char} {n : Numeral}
    (h : numeral text = some (n, rest)) : rest.length < text.length := by
  unfold numeral at h
  split at h
  · exact Nat.lt_succ_of_lt (unsignedNumeral_length h)
  · exact unsignedNumeral_length h

/-- Reading a token uses up a part of the text. -/
theorem token_length {text rest : List Char} {t : Token}
    (h : token text = some (t, rest)) : rest.length < text.length := by
  unfold token at h
  split at h
  case h_7 =>
    obtain ⟨r, hr, he⟩ := Option.map_eq_some_iff.1 h
    obtain ⟨-, rfl⟩ := by simpa using he
    exact Nat.lt_succ_of_lt (stringUnits_length hr)
  case h_11 =>
    obtain ⟨r, hr, he⟩ := Option.map_eq_some_iff.1 h
    obtain ⟨-, rfl⟩ := by simpa using he
    exact numeral_length hr
  all_goals
    obtain ⟨-, rfl⟩ := by simpa using h
    simp only [List.length_cons]
    omega

/-- The tokens of a text, where it has no other characters than tokens and blanks. -/
def tokens : List Char → Option (List Token)
  | [] => some []
  | c :: rest =>
    if isSpace c then tokens rest
    else
      match _h : token (c :: rest) with
      | none => none
      | some (t, after) => (tokens after).map (t :: ·)
termination_by text => text.length
decreasing_by
  · simp
  · exact token_length _h

end ShaderGraph.Json
