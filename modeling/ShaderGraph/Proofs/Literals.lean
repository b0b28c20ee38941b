import ShaderGraph.Glsl.Literal
import ShaderGraph.Proofs.Nearest
import ShaderGraph.Proofs.Numerals
import Mathlib

/-!
# Float literals

A float literal has digits on both sides of a point, so that it is not taken for an integer, and
what it denotes rounds to the double that it stands for.

The digits come from the shortest decimal that rounds to the double, and that it does is all that
is used of it. A number with a fraction is below `2 ^ 52`, where all whole numbers are doubles and
round to themselves; so its decimal has a fraction as well. A whole number from `10 ^ 15` on is far
above one, and so is its decimal; hence its exponent has no sign.
-/

namespace ShaderGraph

/-! ## The form of a literal -/

namespace Numeral

/-- A float literal: digits on both sides of a point, and an exponent of digits alone. -/
structure IsFloat (n : Numeral) : Prop where
  whole : n.whole ≠ [] ∧ ∀ c ∈ n.whole, c.isDigit = true
  fraction : n.fraction ≠ [] ∧ ∀ c ∈ n.fraction, c.isDigit = true
  exponent : ∀ c ∈ n.exponent, c.isDigit = true

/-- Two runs of digits that something else ends are told apart. -/
theorem digits_append_inj {x y rest rest' : List Char} (hx : ∀ c ∈ x, c.isDigit = true)
    (hy : ∀ c ∈ y, c.isDigit = true) (hrest : ∀ c ∈ rest.head?, c.isDigit = false)
    (hrest' : ∀ c ∈ rest'.head?, c.isDigit = false) (h : x ++ rest = y ++ rest') :
    x = y ∧ rest = rest' := by
  obtain ⟨htake, hdrop⟩ := takeWhile_digits hx hrest
  obtain ⟨htake', hdrop'⟩ := takeWhile_digits hy hrest'
  rw [h] at htake hdrop
  exact ⟨htake.symm.trans htake', hdrop.symm.trans hdrop'⟩

/-- What stands behind the fraction. -/
def ending (n : Numeral) : List Char := if n.exponent.isEmpty then [] else 'e' :: n.exponent

theorem head?_ending (n : Numeral) : ∀ c ∈ n.ending.head?, c.isDigit = false := by
  intro c hc
  rw [ending] at hc
  split at hc
  · cases hc
  · obtain rfl := Option.some.inj hc
    decide

theorem ending_inj {n m : Numeral} (h : n.ending = m.ending) : n.exponent = m.exponent := by
  rw [ending, ending] at h
  split at h <;> split at h <;> simp_all

namespace IsFloat

variable {n m : Numeral}

theorem text_eq (h : n.IsFloat) : n.text
    = (if n.negative then ['-'] else []) ++ (n.whole ++ '.' :: (n.fraction ++ n.ending)) := by
  simp [text, ending, h.fraction.1]

/-- **A literal is read in one way.** -/
theorem eq_of_text (hn : n.IsFloat) (hm : m.IsFloat) (h : n.text = m.text) : n = m := by
  have hpoint : ∀ rest : List Char, ∀ c ∈ ('.' :: rest).head?, c.isDigit = false := by
    intro rest c hc
    obtain rfl := Option.some.inj hc
    decide
  -- a digit is no sign
  have hsign : ∀ {k : Numeral}, k.IsFloat → ∀ rest front : List Char,
      '-' :: rest ≠ k.whole ++ front := by
    intro k hk rest front heq
    obtain ⟨c, whole, hwhole⟩ := List.exists_cons_of_ne_nil hk.whole.1
    rw [hwhole, List.cons_append] at heq
    have hdigit := hk.whole.2 c (hwhole ▸ List.mem_cons_self)
    rw [← (List.cons.inj heq).1] at hdigit
    cases hdigit
  rw [hn.text_eq, hm.text_eq] at h
  have hbody : n.negative = m.negative ∧
      n.whole ++ '.' :: (n.fraction ++ n.ending) = m.whole ++ '.' :: (m.fraction ++ m.ending) := by
    cases hneg : n.negative <;> cases hneg' : m.negative <;> rw [hneg, hneg'] at h
    · exact ⟨rfl, h⟩
    · exact absurd h.symm (hsign hn _ _)
    · exact absurd h (hsign hm _ _)
    · exact ⟨rfl, List.append_cancel_left h⟩
  obtain ⟨hnegative, hbody⟩ := hbody
  obtain ⟨hwhole, hbody⟩ := digits_append_inj hn.whole.2 hm.whole.2 (hpoint _) (hpoint _) hbody
  obtain ⟨hfraction, hending⟩ := digits_append_inj hn.fraction.2 hm.fraction.2 n.head?_ending
    m.head?_ending (List.cons.inj hbody).2
  have hexponent := ending_inj hending
  cases n
  cases m
  simp_all

end IsFloat

/-- Digits alone are an exponent without a sign. -/
theorem writtenExponent_of_digits {n : Numeral} (h : ∀ c ∈ n.exponent, c.isDigit = true) :
    n.writtenExponent = natOfDigits n.exponent := by
  rw [writtenExponent]
  split
  · rename_i digits hexponent
    cases h '-' (hexponent ▸ List.mem_cons_self)
  · rename_i digits hexponent
    cases h '+' (hexponent ▸ List.mem_cons_self)
  · rfl

end Numeral

/-! ## Whole numbers -/

namespace Binary

variable {b : Binary} {q : ℚ} {pattern : ℕ}

theorem value_eq_div (b : Binary) : b.value = b.numerator / b.denominator := by
  rw [value, zpow_eq_div two_ne_zero, numerator, denominator]
  simp only [Nat.pow_eq]
  push_cast
  ring

theorem denominator_pos (b : Binary) : 0 < b.denominator := Nat.pow_pos two_pos

theorem value_eq_floor (h : b.isWhole = true) : b.value = b.floor := by
  rw [isWhole, beq_iff_eq] at h
  rw [value_eq_div, floor, Nat.cast_div (Nat.dvd_of_mod_eq_zero h)]
  exact_mod_cast b.denominator_pos.ne'

theorem isWhole_of_value {n : ℕ} (h : b.value = n) : b.isWhole = true := by
  have hden : (b.denominator : ℚ) ≠ 0 := by exact_mod_cast b.denominator_pos.ne'
  rw [value_eq_div, div_eq_iff hden] at h
  have hnum : b.numerator = n * b.denominator := by exact_mod_cast h
  rw [isWhole, hnum, Nat.mul_mod_left]
  rfl

/-- A whole number as a magnitude, with zeros behind it up to the full significand. -/
def ofWhole (n : ℕ) : Binary := ⟨n * 2 ^ (52 - n.log2), -((52 - n.log2 : ℕ) : ℤ)⟩

theorem value_ofWhole (n : ℕ) : (ofWhole n).value = n := by
  rw [ofWhole, value, zpow_neg, zpow_natCast]
  push_cast
  field_simp

theorem fits_ofWhole {n : ℕ} (hpos : 0 < n) (h : n ≤ 2 ^ 53) : (ofWhole n).Fits := by
  have hlow : 2 ^ n.log2 ≤ n := Nat.log2_self_le hpos.ne'
  have hhigh : n < 2 ^ (n.log2 + 1) := Nat.lt_log2_self
  refine ⟨?_, ?_, Or.inl ?_⟩
  · simp only [ofWhole, leastExponent]
    omega
  · rcases Nat.le_total n.log2 52 with hle | hge
    · calc n * 2 ^ (52 - n.log2) ≤ 2 ^ (n.log2 + 1) * 2 ^ (52 - n.log2) :=
            Nat.mul_le_mul_right _ hhigh.le
        _ = 2 ^ 53 := by
          rw [← pow_add]
          congr 1
          omega
    · simpa [ofWhole, Nat.sub_eq_zero_of_le hge] using h
  · calc 2 ^ 52 ≤ 2 ^ (n.log2 + (52 - n.log2)) := Nat.pow_le_pow_right two_pos (by omega)
      _ = 2 ^ n.log2 * 2 ^ (52 - n.log2) := pow_add _ _ _
      _ ≤ n * 2 ^ (52 - n.log2) := Nat.mul_le_mul_right _ hlow

/-- Every whole number up to `2 ^ 53` is a double. -/
theorem exists_worth_eq {n : ℕ} (h : n ≤ 2 ^ 53) :
    ∃ other ≤ infinityBits, worth other = n := by
  rcases Nat.eq_zero_or_pos n with rfl | hpos
  · exact ⟨0, Nat.zero_le _, by simp [worth, ofBits, value]⟩
  · have hfits := fits_ofWhole hpos h
    have hfield : ((ofWhole n).exponent - leastExponent).toNat ≤ 1074 := by
      simp only [ofWhole, leastExponent]
      omega
    refine ⟨(ofWhole n).bits, ?_, (worth_bits hfits).trans (value_ofWhole n)⟩
    calc (ofWhole n).bits ≤ 1074 * Nat.pow 2 52 + 2 ^ 53 :=
          Nat.add_le_add (Nat.mul_le_mul_right _ hfield) hfits.le
      _ ≤ infinityBits := by decide

/-- Above one, a double is not the nearest to anything below one. -/
theorem IsNearest.one_le (h : IsNearest q pattern) (hone : 1 < worth pattern) : 1 ≤ q := by
  obtain ⟨other, hother, hworth⟩ := exists_worth_eq (n := 1) (by decide)
  have hdist := h.dist_le hother
  by_contra hq
  rw [not_le] at hq
  rw [hworth, Nat.cast_one, abs_of_neg (by linarith), abs_of_neg (by linarith)] at hdist
  linarith

/-- From `2 ^ 52` on, all magnitudes are whole. -/
theorem worth_lt_of_not_isWhole (h : (ofBits pattern).isWhole = false) :
    worth pattern < 2 ^ 52 := by
  have hexponent : (ofBits pattern).exponent ≤ -1 := by
    by_contra hlarge
    have hden : (ofBits pattern).denominator = 1 := by
      rw [denominator, Int.toNat_of_nonpos (by omega), Nat.pow_eq, pow_zero]
    rw [isWhole, hden, Nat.mod_one] at h
    cases h
  have hsignificand : ((ofBits pattern).significand : ℚ) < 2 ^ 53 := by
    exact_mod_cast (fits_ofBits pattern).2
  calc worth pattern < 2 ^ 53 * 2 ^ (ofBits pattern).exponent :=
        mul_lt_mul_of_pos_right hsignificand (by positivity)
    _ ≤ 2 ^ 53 * 2 ^ (-1 : ℤ) := by gcongr; exact one_le_two
    _ = 2 ^ 52 := by norm_num

/-- What is not whole is nearest to no whole number: up to `2 ^ 53` these are doubles themselves,
and above it that one is nearer. -/
theorem IsNearest.ne_natCast (h : IsNearest q pattern) (hwhole : (ofBits pattern).isWhole = false)
    (n : ℕ) : q ≠ n := by
  rintro rfl
  have hsmall := worth_lt_of_not_isWhole hwhole
  rcases Nat.le_total n (2 ^ 53) with hle | hge
  · obtain ⟨other, hother, hworth⟩ := exists_worth_eq hle
    have hdist := h.dist_le hother
    rw [hworth, sub_self, abs_zero, abs_nonpos_iff, sub_eq_zero] at hdist
    rw [isWhole_of_value hdist.symm] at hwhole
    cases hwhole
  · obtain ⟨other, hother, hworth⟩ := exists_worth_eq (le_refl (2 ^ 53))
    have hdist := h.dist_le hother
    have hlarge : (2 ^ 53 : ℚ) ≤ n := by exact_mod_cast hge
    rw [hworth, abs_of_nonneg (by linarith), abs_of_nonneg (by push_cast; linarith)] at hdist
    push_cast at hdist
    linarith

end Binary

/-! ## Decimals -/

namespace Decimal

variable {d : Decimal}

theorem exponent_neg (h : ∀ n : ℕ, d.value ≠ n) : d.exponent < 0 := by
  by_contra hexponent
  refine h (d.digits * 10 ^ d.exponent.toNat) ?_
  rw [value_eq_div, Int.toNat_of_nonpos (by omega : -d.exponent ≤ 0)]
  simp

theorem leadingExponent_nonneg (h : 1 ≤ d.value) : 0 ≤ d.leadingExponent := by
  by_contra hlead
  have hpos : 0 < d.digitChars.length := List.length_pos_iff.2 Nat.toDigits_ne_nil
  have hdigits : d.digits < 10 ^ d.digitChars.length :=
    (Nat.length_toDigits_le_iff (by decide) hpos).1 (le_refl _)
  have hsmall : d.value < 1 := by
    calc d.value < 10 ^ d.digitChars.length * 10 ^ d.exponent :=
          mul_lt_mul_of_pos_right (by exact_mod_cast hdigits) (by positivity)
      _ = 10 ^ ((d.digitChars.length : ℤ) + d.exponent) := by
        rw [zpow_add₀ (by norm_num), zpow_natCast]
      _ ≤ 10 ^ (0 : ℤ) := by
        refine zpow_le_zpow_right₀ (by norm_num) ?_
        rw [leadingExponent] at hlead
        omega
      _ = 1 := zpow_zero _
  exact absurd h (not_le.2 hsmall)

end Decimal

namespace Numeral

variable {d : Decimal} (negative : Bool)

theorem isFloat_zero : IsFloat ⟨negative, ['0'], ['0'], []⟩ :=
  ⟨by simp, by simp, by simp⟩

/-- With a negative exponent there are digits behind the point. -/
theorem isFloat_positional (hdigits : 0 < d.digits) (h : d.exponent < 0) :
    (positional negative d).IsFloat := by
  have hproper := proper_positional negative hdigits
  refine ⟨⟨hproper.whole.ne_nil, hproper.whole.isDigit⟩, ⟨?_, hproper.fraction⟩, ?_⟩
  · simp only [positional, if_neg (by omega : ¬0 ≤ d.exponent)]
    split
    · rw [Ne, List.drop_eq_nil_iff]
      omega
    · exact List.append_ne_nil_of_right_ne_nil _ Nat.toDigits_ne_nil
  · simp only [positional, if_neg (by omega : ¬0 ≤ d.exponent)]
    split <;> simp

theorem isFloat_withFraction_scientific {exponent : List Char}
    (h : ∀ c ∈ exponent, c.isDigit = true) :
    (scientific negative d exponent).withFraction.IsFloat := by
  have hdigit : ∀ c ∈ d.digitChars, c.isDigit = true := fun _ => isDigit_of_mem_toDigits
  have hwhole : d.digitChars.take 1 ≠ [] ∧ ∀ c ∈ d.digitChars.take 1, c.isDigit = true := by
    refine ⟨?_, fun c hc => hdigit c (List.mem_of_mem_take hc)⟩
    simp [List.take_eq_nil_iff, Decimal.digitChars]
  rw [withFraction]
  split
  · exact ⟨hwhole, by simp, h⟩
  · rename_i hfraction
    exact ⟨hwhole, ⟨by simpa using hfraction, fun c hc => hdigit c (List.mem_of_mem_drop hc)⟩, h⟩

/-- A whole number with a zero behind the point is worth the number. -/
theorem value_whole (n : ℕ) :
    (toDecimal ⟨negative, Nat.toDigits 10 n, ['0'], []⟩).value = n := by
  have hfraction : (⟨negative, Nat.toDigits 10 n, ['0'], []⟩ : Numeral)
      = withFraction ⟨negative, Nat.toDigits 10 n, [], []⟩ := rfl
  rw [hfraction, value_withFraction, toDecimal_plain, List.append_nil, natOfDigits_toDigits]
  simp [Decimal.value]

end Numeral

/-! ## Literals -/

namespace Glsl

variable (negative : Bool) {pattern : ℕ}

theorem isFloat_numeralOf (h : pattern < Binary.infinityBits) :
    (numeralOf negative (.ofBits pattern)).IsFloat := by
  have hnearest := Decimal.nearestBits_eq_iff.1 (Binary.nearestBits_shortest .upward h)
  rw [numeralOf]
  split
  · rename_i hwhole
    have hne := hnearest.ne_natCast (by simpa using hwhole)
    refine Numeral.isFloat_positional negative (Nat.pos_of_ne_zero fun hzero => ?_)
      (Decimal.exponent_neg hne)
    exact hne 0 (by simpa using Decimal.digits_eq_zero_iff.1 hzero)
  · split
    · exact ⟨⟨Nat.toDigits_ne_nil, fun _ => isDigit_of_mem_toDigits⟩, by simp, by simp⟩
    · exact Numeral.isFloat_withFraction_scientific negative fun _ => isDigit_of_mem_toDigits

theorem nearestBits_numeralOf (h : pattern < Binary.infinityBits) :
    (numeralOf negative (.ofBits pattern)).toDecimal.nearestBits = pattern := by
  have hshortest := Binary.nearestBits_shortest .upward h
  rw [numeralOf]
  split
  · rw [Decimal.nearestBits_congr (Numeral.value_positional negative), hshortest]
  · rename_i hwhole
    have hfloor := Binary.value_eq_floor (b := .ofBits pattern) (by simpa using hwhole)
    split
    · exact Binary.nearestBits_of_value h ((Numeral.value_whole negative _).trans hfloor.symm)
    · rename_i hlimit
      have hlarge : 1 < Binary.worth pattern := by
        rw [Binary.worth, hfloor]
        exact_mod_cast (by decide : 1 < wholeLimit).trans_le (not_lt.1 hlimit)
      have hlead := Decimal.leadingExponent_nonneg
        ((Decimal.nearestBits_eq_iff.1 hshortest).one_le hlarge)
      rw [Decimal.nearestBits_congr (Numeral.value_withFraction _),
        Decimal.nearestBits_congr (Numeral.value_scientific negative ?_), hshortest]
      rw [Numeral.writtenExponent_of_digits fun _ => isDigit_of_mem_toDigits, Numeral.scientific,
        natOfDigits_toDigits, Int.toNat_of_nonneg hlead]

theorem negative_numeralOf (magnitude : Binary) :
    (numeralOf negative magnitude).negative = negative := by
  simp only [numeralOf]
  split
  · exact Numeral.negative_positional negative _
  · split
    · rfl
    · rw [Numeral.negative_withFraction, Numeral.scientific]

theorem isFloat_numeral (x : Float) : (numeral x).IsFloat := by
  rw [numeral]
  cases hdouble : Double.ofFloat x with
  | nan => exact Numeral.isFloat_zero false
  | infinite sign => exact Numeral.isFloat_zero false
  | finite sign magnitude =>
    rw [Double.ofFloat] at hdouble
    split at hdouble
    · rename_i hlt
      obtain ⟨-, rfl⟩ := Double.finite.inj hdouble
      exact isFloat_numeralOf sign hlt
    · split at hdouble <;> cases hdouble

theorem numeral_ofBits {pattern : UInt64} (h : pattern.toNat % 2 ^ 63 < Binary.infinityBits) :
    numeral (Float.ofBits pattern)
      = numeralOf (2 ^ 63 ≤ pattern.toNat) (.ofBits (pattern.toNat % 2 ^ 63)) := by
  rw [numeral, Double.ofFloat, Double.toBits_ofBits h]
  simp only [Nat.pow_eq, h, if_true]

/-- **Float literals are valid and exact.** Whatever the bits of a double, its literal has digits on
both sides of a point and no sign but a leading one, so it is not taken for an integer, and there is
one way to read it. If the double is finite, what is read has the sign of the double, also where
that is zero, and rounds to its magnitude. -/
theorem float_literal_exact (pattern : UInt64) :
    (∃ n : Numeral, n.IsFloat ∧ (floatLiteral (Float.ofBits pattern)).toList = n.text) ∧
    (pattern.toNat % 2 ^ 63 < Binary.infinityBits → ∀ n : Numeral, n.IsFloat →
      (floatLiteral (Float.ofBits pattern)).toList = n.text →
      (n.negative = true ↔ 2 ^ 63 ≤ pattern.toNat) ∧
      Binary.IsNearest n.toDecimal.value (pattern.toNat % 2 ^ 63)) := by
  have htext : (floatLiteral (Float.ofBits pattern)).toList
      = (numeral (Float.ofBits pattern)).text := String.toList_ofList
  refine ⟨⟨_, isFloat_numeral _, htext⟩, fun hfinite n hn hread => ?_⟩
  obtain rfl := (isFloat_numeral _).eq_of_text hn (htext.symm.trans hread)
  rw [numeral_ofBits hfinite, negative_numeralOf, decide_eq_true_iff]
  exact ⟨Iff.rfl, Decimal.nearestBits_eq_iff.1 (nearestBits_numeralOf _ hfinite)⟩

/-- The sign of zero is kept, and zero has a fraction. A large number has an exponent behind its
fraction, and the decimal rounds to the number. -/
theorem float_literal_exact_negatives :
    let zero : UInt64 := 0x8000000000000000
    let large : UInt64 := 0xFE41EB2D66005835
    floatLiteral (Float.ofBits zero) = "-0.0" ∧
    Binary.IsNearest (Numeral.toDecimal ⟨true, ['0'], ['0'], []⟩).value (zero.toNat % 2 ^ 63) ∧
    floatLiteral (Float.ofBits large) = "-1.5e300" ∧
    Binary.IsNearest (Numeral.toDecimal ⟨true, ['1'], ['5'], ['3', '0', '0']⟩).value
      (large.toNat % 2 ^ 63) := by
  intro zero large
  have hzero : floatLiteral (Float.ofBits zero) = "-0.0" := by
    rw [floatLiteral, numeral_ofBits (by decide)]
    decide +kernel
  have hlarge : floatLiteral (Float.ofBits large) = "-1.5e300" := by
    rw [floatLiteral, numeral_ofBits (by decide)]
    decide +kernel
  refine ⟨hzero, ?_, hlarge, ?_⟩
  · refine ((float_literal_exact zero).2 (by decide) _ (Numeral.isFloat_zero true) ?_).2
    rw [hzero]
    rfl
  · have hfloat : Numeral.IsFloat ⟨true, ['1'], ['5'], ['3', '0', '0']⟩ :=
      ⟨by simp, by simp, by simp⟩
    refine ((float_literal_exact large).2 (by decide) _ hfloat ?_).2
    rw [hlarge]
    rfl

/-- A whole number from the limit on has an exponent and a fraction nevertheless. -/
example : (numeralOf false (.ofBits 0x444B1AE4D6E2EF50)).text = "1.0e21".toList := by
  decide +kernel

end Glsl

end ShaderGraph
