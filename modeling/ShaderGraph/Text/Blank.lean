/-!
# Blank characters

The blank characters are those with the Unicode property White_Space. Trimming, the test for a
blank text, splitting a text at blanks and re-indenting all go by this one set; the zero-width
space and the byte order mark are outside it.

Everything works on the list of characters of a text. The forms on `String` convert and call.
-/

namespace ShaderGraph.Text

/-- The blank characters as closed ranges of code points, in ascending order. -/
def blankRanges : List (Nat × Nat) :=
  [(0x09, 0x0D), (0x20, 0x20), (0x85, 0x85), (0xA0, 0xA0), (0x1680, 0x1680), (0x2000, 0x200A),
   (0x2028, 0x2029), (0x202F, 0x202F), (0x205F, 0x205F), (0x3000, 0x3000)]

/-- Whether a character is blank. -/
def isBlank (c : Char) : Bool :=
  blankRanges.any fun range => range.1 ≤ c.toNat && c.toNat ≤ range.2

/-- The text without its leading blanks. -/
def trimStart (text : List Char) : List Char :=
  text.dropWhile isBlank

/-- The text without its trailing blanks. -/
def trimEnd : List Char → List Char
  | [] => []
  | c :: rest =>
    let kept := trimEnd rest
    if isBlank c && kept.isEmpty then [] else c :: kept

/-- The text without blanks at either end. -/
def trim (text : List Char) : List Char :=
  trimEnd (trimStart text)

/-- Whether a text holds nothing but blanks. -/
def isBlankText (text : String) : Bool :=
  text.toList.all isBlank

/-- The text without blanks at either end. -/
def trimmed (text : String) : String :=
  String.ofList (trim text.toList)

/-- The maximal runs of characters that are not blank. -/
def words (text : List Char) : List (List Char) :=
  (text.splitOnP isBlank).filter fun word => !word.isEmpty

/-- One line of indented text: trailing blanks are dropped, a line with anything left is pushed
to the right by `width` spaces, and an empty line stays empty. -/
def indentLine (width : Nat) (line : List Char) : List Char :=
  match trimEnd line with
  | [] => []
  | kept => List.replicate width ' ' ++ kept

/-- The text trimmed and then indented line by line. -/
def indentLines (width : Nat) (text : List Char) : List Char :=
  ['\n'].intercalate (((trim text).splitOn '\n').map (indentLine width))

/-- The text trimmed and then indented line by line. -/
def indent (width : Nat) (text : String) : String :=
  String.ofList (indentLines width text.toList)

@[simp] theorem trimEnd_nil : trimEnd [] = [] := rfl

theorem trimEnd_cons (c : Char) (rest : List Char) :
    trimEnd (c :: rest) =
      if isBlank c && (trimEnd rest).isEmpty then [] else c :: trimEnd rest := rfl

/-- Trimming leaves nothing exactly of a blank text. -/
theorem trimEnd_eq_nil_iff (text : List Char) : trimEnd text = [] ↔ text.all isBlank := by
  induction text with
  | nil => simp
  | cons c rest ih =>
    rw [trimEnd_cons]
    by_cases hc : isBlank c <;> cases hr : trimEnd rest <;> simp_all

theorem exists_eq_trimEnd_append (text : List Char) :
    ∃ back, (∀ b ∈ back, isBlank b = true) ∧ text = trimEnd text ++ back := by
  induction text with
  | nil => exact ⟨[], by simp, rfl⟩
  | cons c rest ih =>
    obtain ⟨back, hback, hrest⟩ := ih
    rw [trimEnd_cons]
    split
    · rename_i hdropped
      obtain ⟨hc, hnil⟩ := Bool.and_eq_true_iff.1 hdropped
      rw [List.isEmpty_iff.1 hnil, List.nil_append] at hrest
      exact ⟨c :: rest, List.forall_mem_cons.2 ⟨hc, hrest ▸ hback⟩, rfl⟩
    · refine ⟨back, hback, ?_⟩
      rw [List.cons_append, ← hrest]

/-- Trimming takes blanks from both ends. -/
theorem exists_eq_append_trim (text : List Char) :
    ∃ front back, (∀ b ∈ front, isBlank b = true) ∧ (∀ b ∈ back, isBlank b = true) ∧
      text = front ++ (trim text ++ back) := by
  obtain ⟨back, hback, hrest⟩ := exists_eq_trimEnd_append (trimStart text)
  refine ⟨text.takeWhile isBlank, back, List.all_eq_true.1 List.all_takeWhile, hback, ?_⟩
  rw [trim, ← hrest, trimStart, List.takeWhile_append_dropWhile]

end ShaderGraph.Text
