/-!
# Word characters

Identifiers, placeholder names and generated symbols are made of ASCII letters, digits and the
underscore. A word may start with any of these; an identifier starts with no digit.
-/

namespace ShaderGraph.Text

/-- An ASCII letter, an ASCII digit or an underscore. -/
def isWordChar (c : Char) : Bool :=
  c.isAlphanum || c == '_'

/-- An ASCII letter or an underscore: what an identifier may start with. -/
def isWordStart (c : Char) : Bool :=
  c.isAlpha || c == '_'

/-- Whether a word, taken to be made of word characters, is an identifier. -/
def startsIdentifier : List Char → Bool
  | [] => false
  | c :: _ => isWordStart c

/-- Whether a whole text is one identifier. -/
def isIdentifier (text : List Char) : Bool :=
  startsIdentifier text && text.all isWordChar

theorem isWordChar_of_isWordStart {c : Char} (h : isWordStart c = true) : isWordChar c = true := by
  simp only [isWordStart, isWordChar, Char.isAlphanum, Bool.or_eq_true] at h ⊢
  exact h.imp_left Or.inl

/-- Word characters lie between the digit zero and the small letter z. -/
theorem toNat_of_isWordChar {c : Char} (h : isWordChar c = true) :
    48 ≤ c.toNat ∧ c.toNat ≤ 122 := by
  delta isWordChar Char.isAlphanum Char.isAlpha Char.isUpper Char.isLower Char.isDigit at h
  simp only [Bool.or_eq_true, Bool.and_eq_true, decide_eq_true_eq, beq_iff_eq, ge_iff_le,
    UInt32.le_iff_toNat_le, ← Char.toNat_inj] at h
  simp at h
  omega

end ShaderGraph.Text
