import ShaderGraph.Decimal.Shortest
import Mathlib.Algebra.Order.Field.Power
import Mathlib.Data.Int.Log
import Mathlib.Data.Rat.Floor
import Mathlib.Tactic.FieldSimp
import Mathlib.Tactic.Positivity
import Mathlib.Tactic.Ring

/-!
# Rounding and the shortest decimal

A decimal is rounded by what it is worth and not by how it is written (`Decimal.nearestBits_congr`):
the exponent of the grid is the binary logarithm of its value, and a quotient is rounded alike
however the fraction is expanded. Answering the very large and the very small without writing them
out changes nothing.

A double lies on its own grid, so that written out in full it rounds to itself. The search for the
shortest decimal only ever stops at one that rounds to the double, hence whatever it finds reads
back (`Binary.nearestBits_shortest`).
-/

namespace ShaderGraph

/-- A power with an integer exponent as a fraction of natural ones. -/
theorem zpow_eq_div {base : ℚ} (hbase : base ≠ 0) (z : ℤ) :
    base ^ z = base ^ z.toNat / base ^ (-z).toNat := by
  rw [← zpow_natCast, ← zpow_natCast, ← zpow_sub₀ hbase]
  congr 1
  omega

/-! ## Rounding a fraction -/

/-- A quotient is rounded alike however the fraction is expanded. -/
theorem roundDiv_mul {k : ℕ} (hk : 0 < k) (num den : ℕ) :
    roundDiv (num * k) (den * k) = roundDiv num den := by
  have hdiv : num * k / (den * k) = num / den := Nat.mul_div_mul_right num den hk
  have htwice : 2 * (num * k % (den * k)) = 2 * (num % den) * k := by
    rw [Nat.mul_mod_mul_right, Nat.mul_assoc]
  simp only [roundDiv, hdiv, htwice, Nat.mul_lt_mul_right hk]

theorem roundDiv_congr {num den num' den' : ℕ} (hden : 0 < den) (hden' : 0 < den')
    (h : (num : ℚ) / den = num' / den') : roundDiv num den = roundDiv num' den' := by
  have hcross : num * den' = num' * den := by
    rw [div_eq_div_iff (by positivity) (by positivity)] at h
    exact_mod_cast h
  rw [← roundDiv_mul hden', hcross, Nat.mul_comm den, roundDiv_mul hden]

/-- A whole quotient is kept. -/
theorem roundDiv_mul_self {den : ℕ} (hden : 0 < den) (m : ℕ) : roundDiv (m * den) den = m := by
  simp [roundDiv, Nat.mul_div_cancel m hden, hden]

/-- Less than a half is rounded to nothing. -/
theorem roundDiv_eq_zero {num den : ℕ} (h : 2 * num < den) : roundDiv num den = 0 := by
  have hlt : num < den := by omega
  simp [roundDiv, Nat.mod_eq_of_lt hlt, h, Nat.div_eq_of_lt hlt]

theorem le_roundDiv {m num den : ℕ} (hden : 0 < den) (h : m * den ≤ num) :
    m ≤ roundDiv num den := by
  have hquotient : m ≤ num / den := (Nat.le_div_iff_mul_le hden).2 h
  simp only [roundDiv]
  split
  · exact hquotient
  · split <;> omega

/-! ## The binary logarithm -/

theorem log_eq_of_bounds {q : ℚ} (hq : 0 < q) {e : ℤ} (hlow : (2 : ℚ) ^ e ≤ q)
    (hhigh : q < 2 ^ (e + 1)) : Int.log 2 q = e := by
  have h1 : e ≤ Int.log 2 q := (Int.zpow_le_iff_le_log one_lt_two hq).1 hlow
  have h2 : Int.log 2 q < e + 1 := (Int.lt_zpow_iff_log_lt one_lt_two hq).1 hhigh
  omega

theorem pow_log2_le {n : ℕ} (hn : 0 < n) : (2 : ℚ) ^ (n.log2 : ℤ) ≤ n := by
  rw [zpow_natCast]
  exact_mod_cast Nat.log2_self_le hn.ne'

theorem lt_pow_log2 (n : ℕ) : (n : ℚ) < 2 ^ ((n.log2 : ℤ) + 1) := by
  have h : n < 2 ^ (n.log2 + 1) := Nat.lt_log2_self
  exact_mod_cast h

/-- The guess from the lengths of numerator and denominator is at most one too large. -/
theorem binaryLog_eq_log {num den : ℕ} (hnum : 0 < num) (hden : 0 < den) :
    binaryLog num den = Int.log 2 ((num : ℚ) / den) := by
  have hnum' : (0 : ℚ) < num := by exact_mod_cast hnum
  have hden' : (0 : ℚ) < den := by exact_mod_cast hden
  have hpos : (0 : ℚ) < num / den := div_pos hnum' hden'
  have htwo : (2 : ℚ) ≠ 0 := two_ne_zero
  let guess : ℤ := num.log2 - den.log2
  have hhigh : (num : ℚ) / den < 2 ^ (guess + 1) := by
    rw [div_lt_iff₀ hden']
    calc (num : ℚ) < 2 ^ ((num.log2 : ℤ) + 1) := lt_pow_log2 num
      _ = 2 ^ (guess + 1) * 2 ^ (den.log2 : ℤ) := by
        rw [← zpow_add₀ htwo]
        congr 1
        omega
      _ ≤ 2 ^ (guess + 1) * den := by
        have := pow_log2_le hden
        gcongr
  have hlow : (2 : ℚ) ^ (guess - 1) ≤ num / den := by
    rw [le_div_iff₀ hden']
    calc (2 : ℚ) ^ (guess - 1) * den ≤ 2 ^ (guess - 1) * 2 ^ ((den.log2 : ℤ) + 1) := by
          have := (lt_pow_log2 den).le
          gcongr
      _ = 2 ^ (num.log2 : ℤ) := by
        rw [← zpow_add₀ htwo]
        congr 1
        omega
      _ ≤ num := pow_log2_le hnum
  -- the comparison in whole numbers is that of the fraction with the power
  have hcompare : num * 2 ^ (-guess).toNat < den * 2 ^ guess.toNat
      ↔ (num : ℚ) / den < 2 ^ guess := by
    rw [zpow_eq_div htwo, div_lt_div_iff₀ hden' (by positivity), mul_comm ((2 : ℚ) ^ _)]
    exact_mod_cast Iff.rfl
  change (if num * 2 ^ (-guess).toNat < den * 2 ^ guess.toNat then guess - 1 else guess) = _
  split
  · rename_i hlt
    refine (log_eq_of_bounds hpos hlow ?_).symm
    rw [sub_add_cancel]
    exact hcompare.1 hlt
  · rename_i hnot
    exact (log_eq_of_bounds hpos (not_lt.1 (mt hcompare.2 hnot)) hhigh).symm

/-! ## Rounding by value -/

/-- What a decimal is worth. -/
def Decimal.value (d : Decimal) : ℚ := d.digits * 10 ^ d.exponent

/-- What a magnitude is worth. -/
def Binary.value (b : Binary) : ℚ := b.significand * 2 ^ b.exponent

/-- The exponent of the grid that a value is rounded to. -/
def gridExponent (q : ℚ) : ℤ := max Binary.leastExponent (Int.log 2 q - 52)

/-- The bit pattern of the magnitude nearest to a fraction. -/
def nearestTo (num den : ℕ) : ℕ :=
  let e := gridExponent (num / den)
  min Binary.infinityBits
    (Binary.bits ⟨roundDiv (num * 2 ^ (-e).toNat) (den * 2 ^ e.toNat), e⟩)

/-- The fraction that is rounded to a whole number of steps of the grid. -/
theorem cast_scaled (num den : ℕ) (e : ℤ) :
    ((num * 2 ^ (-e).toNat : ℕ) : ℚ) / (den * 2 ^ e.toNat : ℕ) = num / den / 2 ^ e := by
  rw [zpow_eq_div two_ne_zero]
  push_cast
  field_simp

theorem nearestTo_congr {num den num' den' : ℕ} (hden : 0 < den) (hden' : 0 < den')
    (h : (num : ℚ) / den = num' / den') : nearestTo num den = nearestTo num' den' := by
  simp only [nearestTo, h]
  congr 3
  refine roundDiv_congr (by positivity) (by positivity) ?_
  rw [cast_scaled, cast_scaled, h]

namespace Decimal

variable {d d' : Decimal}

/-- The fraction that a decimal is. -/
theorem value_eq_div (d : Decimal) : d.value
    = (d.digits * 10 ^ d.exponent.toNat : ℕ) / (10 ^ (-d.exponent).toNat : ℕ) := by
  rw [value, zpow_eq_div (by norm_num)]
  push_cast
  ring

theorem value_pos (h : d.digits ≠ 0) : 0 < d.value := by
  have hdigits : (0 : ℚ) < d.digits := by exact_mod_cast Nat.pos_of_ne_zero h
  rw [value]
  positivity

theorem digits_eq_zero_iff : d.digits = 0 ↔ d.value = 0 := by
  refine ⟨fun h => by simp [value, h], fun h => ?_⟩
  by_contra hne
  exact (value_pos hne).ne' h

/-- From `2 ^ 1024` on, all is infinite. -/
theorem nearestTo_of_large {num den : ℕ} (hden : 0 < den)
    (h : (2 : ℚ) ^ (1024 : ℤ) ≤ num / den) : nearestTo num den = Binary.infinityBits := by
  have hpos : (0 : ℚ) < num / den := lt_of_lt_of_le (by positivity) h
  have hlog : 1024 ≤ Int.log 2 ((num : ℚ) / den) := (Int.zpow_le_iff_le_log one_lt_two hpos).1 h
  have hgrid : gridExponent (num / den) = Int.log 2 ((num : ℚ) / den) - 52 := by
    rw [gridExponent, Binary.leastExponent]
    omega
  have hsignificand : 2 ^ 52 ≤ roundDiv (num * 2 ^ (-gridExponent (num / den)).toNat)
      (den * 2 ^ (gridExponent (num / den)).toNat) := by
    refine le_roundDiv (by positivity) ?_
    have hscaled : (2 : ℚ) ^ 52 ≤ num / den / 2 ^ gridExponent (num / den) := by
      rw [le_div_iff₀ (by positivity), hgrid, ← zpow_natCast, ← zpow_add₀ two_ne_zero]
      refine le_trans (le_of_eq ?_) (Int.zpow_log_le_self one_lt_two hpos)
      congr 1
      omega
    rw [← cast_scaled, le_div_iff₀ (by positivity)] at hscaled
    exact_mod_cast hscaled
  rw [nearestTo]
  refine min_eq_left ?_
  rw [Binary.bits, Binary.infinityBits]
  simp only [Nat.pow_eq]
  have hsteps : 2046 ≤ (gridExponent (num / den) - Binary.leastExponent).toNat := by
    rw [hgrid, Binary.leastExponent]
    omega
  have hfield := Nat.mul_le_mul_right (2 ^ 52) hsteps
  omega

/-- Below half of the least magnitude, all is zero. -/
theorem nearestTo_of_small {num den : ℕ} (hnum : 0 < num) (hden : 0 < den)
    (h : (num : ℚ) / den < 2 ^ (Binary.leastExponent - 1)) : nearestTo num den = 0 := by
  have hpos : (0 : ℚ) < num / den := by positivity
  have hlog : Int.log 2 ((num : ℚ) / den) < Binary.leastExponent - 1 :=
    (Int.lt_zpow_iff_log_lt one_lt_two hpos).1 h
  have hgrid : gridExponent (num / den) = Binary.leastExponent := by
    rw [gridExponent]
    omega
  have hround : roundDiv (num * 2 ^ (-Binary.leastExponent).toNat)
      (den * 2 ^ Binary.leastExponent.toNat) = 0 := by
    refine roundDiv_eq_zero ?_
    have hhalf : ((num * 2 ^ (-Binary.leastExponent).toNat : ℕ) : ℚ)
        / (den * 2 ^ Binary.leastExponent.toNat : ℕ) < 1 / 2 := by
      rw [cast_scaled, div_lt_iff₀ (by positivity)]
      rw [zpow_sub_one₀ two_ne_zero, mul_comm] at h
      rwa [one_div]
    rw [div_lt_div_iff₀ (by positivity) two_pos, one_mul, mul_comm] at hhalf
    exact_mod_cast hhalf
  simp only [nearestTo, hgrid, hround, Binary.bits, Int.sub_self, Int.toNat_zero, Nat.zero_mul,
    Nat.add_zero, Nat.min_zero]

theorem two_pow_le_ten_pow {n : ℕ} (h : n ≤ 1200) : (2 : ℚ) ^ n ≤ 10 ^ 400 := by
  calc (2 : ℚ) ^ n ≤ 2 ^ (3 * 400) := pow_le_pow_right₀ one_le_two h
    _ = (2 ^ 3) ^ 400 := pow_mul 2 3 400
    _ ≤ 10 ^ 400 := pow_le_pow_left₀ (by positivity) (by norm_num) 400

/-- A decimal with a large exponent is large. -/
theorem value_large (hdigits : d.digits ≠ 0) (h : 400 < d.exponent) :
    (2 : ℚ) ^ (1024 : ℤ) ≤ d.value := by
  have hone : (1 : ℚ) ≤ d.digits := by exact_mod_cast Nat.one_le_iff_ne_zero.2 hdigits
  calc (2 : ℚ) ^ ((1024 : ℕ) : ℤ) ≤ 10 ^ ((400 : ℕ) : ℤ) := by
        rw [zpow_natCast, zpow_natCast]
        exact two_pow_le_ten_pow (by omega)
    _ ≤ 10 ^ d.exponent := zpow_le_zpow_right₀ (by norm_num) h.le
    _ ≤ d.digits * 10 ^ d.exponent := le_mul_of_one_le_left (by positivity) hone

/-- A decimal whose digits cannot make up for its exponent is small. -/
theorem value_small (h : d.exponent + d.digits.log2 < -400) :
    d.value < 2 ^ (Binary.leastExponent - 1) := by
  have hdigits : (d.digits : ℚ) < 10 ^ ((d.digits.log2 : ℤ) + 1) := by
    refine lt_of_lt_of_le (lt_pow_log2 d.digits) ?_
    exact_mod_cast Nat.pow_le_pow_left (by decide : 2 ≤ 10) (d.digits.log2 + 1)
  have hleast : Binary.leastExponent - 1 = -((1075 : ℕ) : ℤ) := rfl
  calc d.value < 10 ^ ((d.digits.log2 : ℤ) + 1) * 10 ^ d.exponent :=
        mul_lt_mul_of_pos_right hdigits (by positivity)
    _ = 10 ^ ((d.digits.log2 : ℤ) + 1 + d.exponent) := (zpow_add₀ (by norm_num) _ _).symm
    _ ≤ 10 ^ (-((400 : ℕ) : ℤ)) := zpow_le_zpow_right₀ (by norm_num) (by omega)
    _ ≤ 2 ^ (Binary.leastExponent - 1) := by
        rw [hleast, zpow_neg, zpow_neg, zpow_natCast, zpow_natCast]
        exact inv_anti₀ (by positivity) (two_pow_le_ten_pow (by omega))

/-- Where the answer is plain it is the same as worked out. -/
theorem nearestBits_eq_nearestTo (h : d.digits ≠ 0) : d.nearestBits
    = nearestTo (d.digits * 10 ^ d.exponent.toNat) (10 ^ (-d.exponent).toNat) := by
  have hnum : 0 < d.digits * 10 ^ d.exponent.toNat := by positivity
  have hden : 0 < 10 ^ (-d.exponent).toNat := by positivity
  rw [nearestBits, if_neg h]
  split
  · rename_i hlarge
    refine (nearestTo_of_large hden ?_).symm
    rw [← value_eq_div]
    exact value_large h hlarge
  · split
    · rename_i hsmall
      refine (nearestTo_of_small hnum hden ?_).symm
      rw [← value_eq_div]
      exact value_small hsmall
    · simp only [Nat.pow_eq, nearestTo, gridExponent, binaryLog_eq_log hnum hden]

/-- **A decimal is rounded by what it is worth.** -/
theorem nearestBits_congr (h : d.value = d'.value) : d.nearestBits = d'.nearestBits := by
  by_cases hzero : d.digits = 0
  · have hzero' : d'.digits = 0 := digits_eq_zero_iff.2 (h ▸ digits_eq_zero_iff.1 hzero)
    simp [nearestBits, hzero, hzero']
  · have hzero' : d'.digits ≠ 0 := by
      rwa [Ne, digits_eq_zero_iff, ← h, ← digits_eq_zero_iff]
    rw [nearestBits_eq_nearestTo hzero, nearestBits_eq_nearestTo hzero']
    refine nearestTo_congr (by positivity) (by positivity) ?_
    rw [← value_eq_div, ← value_eq_div, h]

theorem value_dropZeros (d : Decimal) : d.dropZeros.value = d.value := by
  fun_induction dropZeros d with
  | case1 d h ih =>
    obtain ⟨k, hk⟩ : 10 ∣ d.digits := Nat.dvd_of_mod_eq_zero h.2
    rw [ih, value, value, zpow_add₀ (by norm_num), zpow_one, hk,
      Nat.mul_div_cancel_left k (by decide)]
    push_cast
    ring
  | case2 => rfl

end Decimal

/-! ## Magnitudes of doubles -/

namespace Binary

theorem bits_ofBits (pattern : ℕ) : (ofBits pattern).bits = pattern := by
  rw [ofBits]
  simp only [Nat.pow_eq]
  split
  · simp [bits]
  · simp only [bits, Nat.pow_eq]
    omega

/-- A magnitude is worth nothing only where its pattern is zero. -/
theorem value_ofBits_pos {pattern : ℕ} (h : 0 < pattern) : 0 < (ofBits pattern).value := by
  have hsignificand : 0 < (ofBits pattern).significand := by
    rw [ofBits]
    split
    · exact h
    · exact Nat.add_pos_left (Nat.pow_pos two_pos) _
  rw [value]
  positivity

/-- A magnitude lies on its own grid. -/
theorem gridExponent_value {pattern : ℕ} (h : 0 < pattern) :
    gridExponent (ofBits pattern).value = (ofBits pattern).exponent := by
  have hpos := value_ofBits_pos h
  rw [ofBits] at hpos ⊢
  simp only [Nat.pow_eq] at hpos ⊢
  split at hpos
  · rename_i hsub
    rw [if_pos hsub]
    have hlog : Int.log 2 (value ⟨pattern, leastExponent⟩) < 52 + leastExponent := by
      refine (Int.lt_zpow_iff_log_lt one_lt_two hpos).1 ?_
      rw [value, Nat.cast_ofNat, zpow_add₀ two_ne_zero]
      refine mul_lt_mul_of_pos_right ?_ (by positivity)
      exact_mod_cast hsub
    simp only [gridExponent]
    omega
  · rename_i hnormal
    rw [if_neg hnormal]
    -- the significand has its leading bit at the place of `2 ^ 52`
    have hlog : Int.log 2 (value ⟨2 ^ 52 + pattern % 2 ^ 52,
        leastExponent + ((pattern / 2 ^ 52 - 1 : ℕ) : ℤ)⟩)
          = 52 + (leastExponent + ((pattern / 2 ^ 52 - 1 : ℕ) : ℤ)) := by
      refine log_eq_of_bounds hpos ?_ ?_
      · rw [value, zpow_add₀ two_ne_zero]
        refine mul_le_mul_of_nonneg_right ?_ (by positivity)
        have hle : 2 ^ 52 ≤ 2 ^ 52 + pattern % 2 ^ 52 := Nat.le_add_right _ _
        exact_mod_cast hle
      · rw [value, add_right_comm, zpow_add₀ (two_ne_zero : (2 : ℚ) ≠ 0) (52 + 1)]
        refine mul_lt_mul_of_pos_right ?_ (by positivity)
        have hlt : 2 ^ 52 + pattern % 2 ^ 52 < 2 ^ 53 := by omega
        exact_mod_cast hlt
    rw [gridExponent, hlog]
    simp only
    omega

/-- **What a magnitude is worth rounds to it**, in whatever digits. -/
theorem nearestBits_of_value {pattern : ℕ} (hpattern : pattern < infinityBits) {d : Decimal}
    (h : d.value = (ofBits pattern).value) : d.nearestBits = pattern := by
  rcases Nat.eq_zero_or_pos pattern with rfl | hpos
  · have hzero : d.digits = 0 := by
      rw [Decimal.digits_eq_zero_iff, h]
      simp [ofBits, value]
    rw [Decimal.nearestBits, if_pos hzero]
  · have hdigits : d.digits ≠ 0 := by
      rw [Ne, Decimal.digits_eq_zero_iff, h]
      exact (value_ofBits_pos hpos).ne'
    have hround : ∀ num den : ℕ, 0 < den → (num : ℚ) / den = (ofBits pattern).value →
        roundDiv (num * 2 ^ (-(ofBits pattern).exponent).toNat)
          (den * 2 ^ (ofBits pattern).exponent.toNat) = (ofBits pattern).significand := by
      intro num den hden hvalue
      rw [← roundDiv_mul_self one_pos (ofBits pattern).significand]
      refine roundDiv_congr (by positivity) one_pos ?_
      rw [cast_scaled, hvalue, value, mul_div_cancel_right₀ _ (by positivity)]
      simp
    rw [Decimal.value_eq_div] at h
    rw [Decimal.nearestBits_eq_nearestTo hdigits, nearestTo]
    simp only [h, gridExponent_value hpos]
    rw [hround _ _ (by positivity) h]
    have hbits : bits ⟨(ofBits pattern).significand, (ofBits pattern).exponent⟩ = pattern :=
      bits_ofBits pattern
    rw [hbits]
    exact min_eq_right hpattern.le

theorem value_toDecimal (b : Binary) : b.toDecimal.value = b.value := by
  simp only [toDecimal, Decimal.value, value, Nat.pow_eq]
  rcases Int.le_total 0 b.exponent with h | h
  · rw [min_eq_right h, Int.toNat_of_nonpos (by omega : -b.exponent ≤ 0), pow_zero, zpow_zero,
      zpow_eq_div two_ne_zero b.exponent, Int.toNat_of_nonpos (by omega : -b.exponent ≤ 0)]
    push_cast
    ring
  · rw [min_eq_left h, Int.toNat_of_nonpos h, zpow_eq_div two_ne_zero, zpow_eq_div (by norm_num),
      Int.toNat_of_nonpos h, show (10 : ℚ) = 2 * 5 by norm_num, mul_pow, mul_pow]
    push_cast
    field_simp

/-- **The shortest decimal reads back.** -/
theorem nearestBits_shortest (tie : TieRule) {pattern : ℕ} (hpattern : pattern < infinityBits) :
    ((ofBits pattern).shortest tie).nearestBits = pattern := by
  rw [shortest, Decimal.nearestBits_congr (Decimal.value_dropZeros _)]
  cases hfound : (List.range 17).findSome? fun n => ((ofBits pattern).neighbours tie
      ((ofBits pattern).decimalWidth - (n + 1 : ℕ))).find? (ofBits pattern).readsBack with
  | none => exact nearestBits_of_value hpattern (value_toDecimal _)
  | some d =>
    obtain ⟨n, -, hn⟩ := List.exists_of_findSome?_eq_some hfound
    have hreads : (ofBits pattern).readsBack d = true := List.find?_some hn
    exact (beq_iff_eq.1 hreads).trans (bits_ofBits pattern)

end Binary

end ShaderGraph
