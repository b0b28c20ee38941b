import ShaderGraph.Json.Decode
import ShaderGraph.Proofs.Rounding
import Mathlib

/-!
# Numbers read back from their numerals

A finite double is a sign and a magnitude below that of infinity, and put together again they are
the same double, bit for bit (`Double.assemble_toBits`). Its numeral lays out the shortest decimal
with or without an exponent, which changes how the decimal is written and not what it is worth, so
the numeral reads back as the double (`Json.toFloat?_numeralOf`). What is written is a proper
numeral: it has a digit on either side of a point and no leading zeros (`Json.proper_numeralOf`).
-/

namespace ShaderGraph

/-! ## Bit patterns of doubles -/

section Patterns

open Float.Model Float.Model.UnpackedFloat

/-- The exponent field stands between the sign and the mantissa. -/
theorem toNat_unpackExponent (b : BitVec Format.binary64.numBits) :
    (unpackExponent b).toNat = b.toNat / 2 ^ 52 % 2 ^ 11 := by
  simp [unpackExponent, BitVec.extractLsb_toNat, Nat.shiftRight_eq_div_pow]

/-- The exponent field of a finite double is not that of infinity. -/
theorem unpackExponent_of_isFinite {b : BitVec Format.binary64.numBits}
    (h : (UnpackedFloat.unpack .binary64 b).isFinite = true) :
    (unpackExponent b).toNat ≠ 2047 := by
  intro hall
  have hspecial : unpackExponent b = -1#11 := BitVec.eq_of_toNat_eq hall
  rw [UnpackedFloat.unpack] at h
  simp only [hspecial, if_true] at h
  split at h <;> cases h

/-- The bits of a finite double are kept. -/
theorem Double.toBits_ofBits {pattern : UInt64} (h : pattern.toNat % 2 ^ 63 < Binary.infinityBits) :
    (Float.ofBits pattern).toBits = pattern := by
  let b : BitVec Format.binary64.numBits := pattern.toBitVec
  have hexponent : unpackExponent b ≠ -1#11 := by
    intro hall
    have hfield := congrArg BitVec.toNat hall
    rw [toNat_unpackExponent] at hfield
    change pattern.toNat / 2 ^ 52 % 2 ^ 11 = 2047 at hfield
    have hinfinity : Binary.infinityBits = 2047 * 2 ^ 52 := rfl
    omega
  have hnan : isNaNBits b = false := decide_eq_false fun hbits => hexponent hbits.1
  refine UInt64.toBitVec_inj.1 ((pack_unpack b).trans ?_)
  rw [hnan]
  rfl

end Patterns

/-- The magnitude of a finite double is below that of infinity. -/
theorem magnitude_lt_of_isFinite {x : Float} (h : x.isFinite = true) :
    x.toBits.toNat % 2 ^ 63 < Binary.infinityBits := by
  have hexponent := unpackExponent_of_isFinite h
  rw [toNat_unpackExponent] at hexponent
  have hinfinity : Binary.infinityBits = 2047 * 2 ^ 52 := rfl
  rw [hinfinity]
  change x.toBits.toNat / 2 ^ 52 % 2 ^ 11 ≠ 2047 at hexponent
  omega

namespace Double

theorem ofFloat_of_isFinite {x : Float} (h : x.isFinite = true) : ofFloat x
    = .finite (2 ^ 63 ≤ x.toBits.toNat) (.ofBits (x.toBits.toNat % 2 ^ 63)) := by
  rw [ofFloat]
  exact if_pos (magnitude_lt_of_isFinite h)

/-- **A double is its sign and its magnitude.** -/
theorem assemble_toBits (x : Float) :
    assemble (2 ^ 63 ≤ x.toBits.toNat) (x.toBits.toNat % 2 ^ 63) = x := by
  have hlt : x.toBits.toNat < 2 ^ 64 := x.toBits.toNat_lt
  have hsum : (if decide (2 ^ 63 ≤ x.toBits.toNat) = true then Nat.pow 2 63 else 0)
      + x.toBits.toNat % 2 ^ 63 = x.toBits.toNat := by
    simp only [decide_eq_true_eq, Nat.pow_eq]
    split <;> omega
  rw [assemble, hsum, Nat.toUInt64_eq, UInt64.ofNat_toNat]
  exact Float.ofBits_toBits x

end Double

/-! ## Digits -/

theorem natOfDigits_eq (digits : List Char) : natOfDigits digits = Nat.ofDigitChars 10 digits 0 :=
  Nat.ofDigitChars_eq_foldl.symm

theorem natOfDigits_append (front back : List Char) :
    natOfDigits (front ++ back) = natOfDigits front * 10 ^ back.length + natOfDigits back := by
  rw [natOfDigits_eq, Nat.ofDigitChars_append, Nat.ofDigitChars_eq_ofDigitChars_zero,
    natOfDigits_eq, natOfDigits_eq, Nat.mul_comm]

theorem natOfDigits_toDigits (n : ℕ) : natOfDigits (Nat.toDigits 10 n) = n := by
  rw [natOfDigits_eq, Nat.ofDigitChars_ten_toDigits]

theorem natOfDigits_replicate (n : ℕ) : natOfDigits (List.replicate n '0') = 0 := by
  rw [natOfDigits_eq, Nat.ofDigitChars_replicate_zero, Nat.mul_zero]

theorem isDigit_of_mem_toDigits {n : ℕ} {c : Char} (h : c ∈ Nat.toDigits 10 n) :
    c.isDigit = true :=
  Nat.isDigit_of_mem_toDigits (by decide) (by decide) h

/-- The digits of a positive number do not start with a zero. -/
theorem head?_toDigits {n : ℕ} (h : 0 < n) : (Nat.toDigits 10 n).head? ≠ some '0' := by
  induction n using Nat.strongRecOn with
  | ind n ih =>
    rcases Nat.lt_or_ge n 10 with hlt | hge
    · rw [Nat.toDigits_of_lt_base hlt, List.head?_cons, Ne, Option.some_inj,
        Nat.digitChar_eq_zero]
      omega
    · rw [Nat.toDigits_of_base_le (by decide) hge,
        List.head?_append_of_ne_nil _ Nat.toDigits_ne_nil]
      exact ih (n / 10) (by omega) (by omega)

/-- A run of digits is taken up to where it ends. -/
theorem takeWhile_digits {digits rest : List Char} (hdigits : ∀ c ∈ digits, c.isDigit = true)
    (hrest : ∀ c ∈ rest.head?, c.isDigit = false) :
    (digits ++ rest).takeWhile Char.isDigit = digits
      ∧ (digits ++ rest).dropWhile Char.isDigit = rest := by
  rw [List.takeWhile_append_of_pos hdigits, List.dropWhile_append_of_pos hdigits]
  cases rest with
  | nil => simp
  | cons c tail =>
    have hc : c.isDigit = false := hrest c rfl
    simp [hc]

/-! ## Numerals -/

namespace Numeral

/-- Digits before a point: at least one, and no zero in front of others. -/
structure Leads (digits : List Char) : Prop where
  ne_nil : digits ≠ []
  isDigit : ∀ c ∈ digits, c.isDigit = true
  zero : digits.head? = some '0' → digits = ['0']

/-- An exponent with its sign. -/
def Signed (exponent : List Char) : Prop :=
  ∃ sign digits, exponent = sign :: digits ∧ (sign = '+' ∨ sign = '-') ∧ digits ≠ []
    ∧ ∀ c ∈ digits, c.isDigit = true

/-- A numeral that can be read again. -/
structure Proper (n : Numeral) : Prop where
  whole : Leads n.whole
  fraction : ∀ c ∈ n.fraction, c.isDigit = true
  exponent : n.exponent = [] ∨ Signed n.exponent

theorem leads_toDigits (n : ℕ) : Leads (Nat.toDigits 10 n) := by
  refine ⟨Nat.toDigits_ne_nil, fun _ => isDigit_of_mem_toDigits, fun hzero => ?_⟩
  rcases Nat.eq_zero_or_pos n with rfl | hpos
  · exact Nat.toDigits_zero 10
  · exact absurd hzero (head?_toDigits hpos)

theorem leads_zero : Leads ['0'] :=
  ⟨by simp, by simp, fun _ => rfl⟩

/-- Digits that start as those of a positive number do. -/
theorem leads_of_head? {digits : List Char} {n : ℕ} (hn : 0 < n)
    (hhead : digits.head? = (Nat.toDigits 10 n).head?) (h : ∀ c ∈ digits, c.isDigit = true) :
    Leads digits := by
  refine ⟨?_, h, fun hzero => absurd (hhead ▸ hzero) (head?_toDigits hn)⟩
  rintro rfl
  have hnil : Nat.toDigits 10 n = [] := List.head?_eq_none_iff.1 hhead.symm
  exact Nat.toDigits_ne_nil hnil

variable {d : Decimal} (negative : Bool)

theorem proper_positional (h : 0 < d.digits) : (positional negative d).Proper := by
  have hdigit : ∀ c ∈ d.digitChars, c.isDigit = true := fun _ => isDigit_of_mem_toDigits
  have hzeros : ∀ (n : ℕ), ∀ c ∈ List.replicate n '0', c.isDigit = true := by
    intro n c hc
    rw [List.eq_of_mem_replicate hc]
    rfl
  simp only [positional]
  split
  · refine ⟨leads_of_head? h ?_ ?_, by simp, .inl rfl⟩
    · exact List.head?_append_of_ne_nil _ Nat.toDigits_ne_nil
    · exact fun c hc => (List.mem_append.1 hc).elim (hdigit c) (hzeros _ c)
  · split
    · rename_i hpoint
      refine ⟨leads_of_head? h ?_ fun c hc => hdigit c (List.mem_of_mem_take hc),
        fun c hc => hdigit c (List.mem_of_mem_drop hc), .inl rfl⟩
      rw [List.head?_take, if_neg (by omega)]
      rfl
    · refine ⟨leads_zero, fun c hc => ?_, .inl rfl⟩
      exact (List.mem_append.1 hc).elim (hzeros _ c) (hdigit c)

theorem proper_scientific (h : 0 < d.digits) {exponent : List Char} (he : Signed exponent) :
    (scientific negative d exponent).Proper := by
  have hdigit : ∀ c ∈ d.digitChars, c.isDigit = true := fun _ => isDigit_of_mem_toDigits
  refine ⟨leads_of_head? h ?_ fun c hc => hdigit c (List.mem_of_mem_take hc),
    fun c hc => hdigit c (List.mem_of_mem_drop hc), .inr he⟩
  rw [scientific, List.head?_take, if_neg (by omega)]
  rfl

theorem Proper.withFraction {n : Numeral} (h : n.Proper) : n.withFraction.Proper := by
  rw [Numeral.withFraction]
  split
  · exact ⟨h.whole, by simp, h.exponent⟩
  · exact h

theorem negative_positional (d : Decimal) : (positional negative d).negative = negative := by
  simp only [positional]
  split
  · rfl
  · split <;> rfl

theorem negative_withFraction (n : Numeral) : n.withFraction.negative = n.negative := by
  rw [withFraction]
  split <;> rfl

theorem toDecimal_plain (whole fraction : List Char) : toDecimal ⟨negative, whole, fraction, []⟩
    = ⟨natOfDigits (whole ++ fraction), -(fraction.length : ℤ)⟩ := by
  have hexponent : writtenExponent ⟨negative, whole, fraction, []⟩ = 0 := rfl
  rw [toDecimal, hexponent, Int.zero_sub]

/-- A point moved by zeros in front or behind changes nothing. -/
theorem value_positional : (positional negative d).toDecimal.value = d.value := by
  have hdigits : natOfDigits d.digitChars = d.digits := natOfDigits_toDigits d.digits
  simp only [positional]
  split
  · rename_i hexponent
    rw [toDecimal_plain, List.append_nil, natOfDigits_append, hdigits, natOfDigits_replicate,
      List.length_replicate, Decimal.value_eq_div d,
      Int.toNat_of_nonpos (by omega : -d.exponent ≤ 0), Decimal.value]
    simp
  · rename_i hexponent
    split
    · rename_i hpoint
      have hlength : -((d.digitChars.drop (d.digitChars.length + d.exponent).toNat).length : ℤ)
          = d.exponent := by
        rw [List.length_drop]
        omega
      rw [toDecimal_plain, List.take_append_drop, hdigits, hlength]
    · rename_i hpoint
      have hlength : -((List.replicate (-(d.digitChars.length + d.exponent)).toNat '0'
          ++ d.digitChars).length : ℤ) = d.exponent := by
        rw [List.length_append, List.length_replicate]
        omega
      have hzero : natOfDigits ['0'] = 0 := rfl
      rw [toDecimal_plain, hlength, natOfDigits_append, natOfDigits_append, natOfDigits_replicate,
        hdigits, hzero, Nat.zero_mul, Nat.zero_mul, Nat.zero_add, Nat.zero_add]

/-- A zero behind the point changes nothing. -/
theorem value_withFraction (n : Numeral) : n.withFraction.toDecimal.value = n.toDecimal.value := by
  rw [withFraction]
  split
  · rename_i hempty
    rw [List.isEmpty_iff] at hempty
    have hzero : natOfDigits (n.whole ++ ['0']) = natOfDigits n.whole * 10 := by
      rw [natOfDigits_append]
      rfl
    have hexponent : writtenExponent { n with fraction := ['0'] } = n.writtenExponent := rfl
    simp only [toDecimal, hempty, List.append_nil, hzero, Decimal.value, hexponent,
      List.length_nil, List.length_singleton]
    rw [zpow_sub₀ (by norm_num : (10 : ℚ) ≠ 0), zpow_sub₀ (by norm_num : (10 : ℚ) ≠ 0)]
    push_cast
    field_simp
  · rfl

theorem writtenExponent_signed (e : ℤ) (whole fraction : List Char) :
    writtenExponent ⟨negative, whole, fraction, Json.signedExponent e⟩ = e := by
  by_cases h : e < 0
  · simp only [writtenExponent, Json.signedExponent, if_pos h, natOfDigits_toDigits]
    omega
  · simp only [writtenExponent, Json.signedExponent, if_neg h, natOfDigits_toDigits]
    omega

/-- One digit before the point changes nothing, if the exponent says so. -/
theorem value_scientific {exponent : List Char}
    (h : (scientific negative d exponent).writtenExponent = d.leadingExponent) :
    (scientific negative d exponent).toDecimal.value = d.value := by
  have hdigits : natOfDigits d.digitChars = d.digits := natOfDigits_toDigits d.digits
  rw [toDecimal, h, scientific, List.take_append_drop, hdigits]
  simp only [Decimal.value, Decimal.leadingExponent, List.length_drop]
  rw [Int.add_sub_cancel]

end Numeral

/-! ## Numbers as values -/

namespace Json

theorem signed_signedExponent (e : ℤ) : Numeral.Signed (signedExponent e) := by
  refine ⟨_, _, rfl, ?_, Nat.toDigits_ne_nil, fun _ => isDigit_of_mem_toDigits⟩
  split
  · exact .inr rfl
  · exact .inl rfl

/-- **A number is written as a proper numeral.** -/
theorem proper_numeralOf (negative : Bool) (magnitude : Binary) :
    (numeralOf negative magnitude).Proper := by
  simp only [numeralOf]
  split
  · exact ⟨Numeral.leads_zero, by simp, .inl rfl⟩
  · rename_i hne
    have hpos := Nat.pos_of_ne_zero hne
    split
    · exact (Numeral.proper_positional negative hpos).withFraction
    · exact Numeral.proper_scientific negative hpos (signed_signedExponent _)

/-- The numeral of a number is worth the decimal that is written. -/
theorem value_numeralOf (negative : Bool) (magnitude : Binary) :
    (numeralOf negative magnitude).toDecimal.value = (magnitude.shortest .toEven).value := by
  simp only [numeralOf]
  split
  · rename_i hzero
    rw [Decimal.digits_eq_zero_iff.1 hzero, ← Decimal.digits_eq_zero_iff]
    rfl
  · split
    · rw [Numeral.value_withFraction, Numeral.value_positional]
    · exact Numeral.value_scientific negative (Numeral.writtenExponent_signed _ _ _ _)

theorem negative_numeralOf (negative : Bool) (magnitude : Binary) :
    (numeralOf negative magnitude).negative = negative := by
  simp only [numeralOf]
  split
  · rfl
  · split
    · rw [Numeral.negative_withFraction, Numeral.negative_positional]
    · rfl

/-- **A finite number reads back.** -/
theorem toFloat?_numeralOf {x : Float} (h : x.isFinite = true) :
    (numeralOf (2 ^ 63 ≤ x.toBits.toNat) (.ofBits (x.toBits.toNat % 2 ^ 63))).toFloat?
      = some x := by
  have hbits := magnitude_lt_of_isFinite h
  rw [Numeral.toFloat?, Decimal.nearestBits_congr (value_numeralOf _ _),
    Binary.nearestBits_shortest .toEven hbits, negative_numeralOf]
  simp only [hbits, if_true, Double.assemble_toBits]

theorem ofFloat_eq {x : Float} (h : x.isFinite = true) : ∃ n : Numeral, ofFloat x = .number n
    ∧ n.Proper ∧ n.toFloat? = some x := by
  refine ⟨_, ?_, proper_numeralOf _ _, toFloat?_numeralOf h⟩
  rw [ofFloat, Double.ofFloat_of_isFinite h]

end Json

end ShaderGraph
