import ShaderGraph.Proofs.Rounding
import Mathlib.Tactic.Linarith

/-!
# The nearest double

Magnitudes grow with their patterns: from one pattern to the next it is one step of the grid. So a
value lies between two patterns that follow each other, and the nearest of all is one of the two.
Rounding the steps of the grid finds it (`Decimal.nearestBits_eq_iff`), and where both are equally
near it takes the even one.

The pattern of infinity takes part in this with the value `2 ^ 1024`, which would come behind the
largest finite magnitude. What is nearer to it than to all finite ones is infinite.
-/

namespace ShaderGraph

namespace Binary

/-! ## Magnitudes in order -/

/-- What the magnitude with a pattern is worth, and `2 ^ 1024` for that of infinity. -/
def worth (pattern : ℕ) : ℚ := (ofBits pattern).value

/-- A magnitude as a double holds it, or one step above: no bit is left unused that would give a
finer grid. -/
structure Fits (b : Binary) : Prop where
  least : leastExponent ≤ b.exponent
  le : b.significand ≤ 2 ^ 53
  full : 2 ^ 52 ≤ b.significand ∨ b.exponent = leastExponent

theorem fits_ofBits (pattern : ℕ) :
    (ofBits pattern).Fits ∧ (ofBits pattern).significand < 2 ^ 53 := by
  rw [ofBits]
  simp only [Nat.pow_eq]
  split
  · rename_i hsmall
    exact ⟨⟨le_refl _, by simp only; omega, Or.inr rfl⟩, by simp only; omega⟩
  · refine ⟨⟨?_, by simp only; omega, Or.inl (by simp only; omega)⟩, by simp only; omega⟩
    simp only
    omega

/-- A step of the grid leads to the next pattern, also where the exponent changes. -/
theorem bits_succ (m : ℕ) (e : ℤ) : bits ⟨m + 1, e⟩ = bits ⟨m, e⟩ + 1 :=
  (Nat.add_assoc _ m 1).symm

/-- A pattern is even as its significand is. -/
theorem even_bits_iff {b : Binary} : Even b.bits ↔ Even b.significand := by
  have hfield : Even (Nat.pow 2 52) := ⟨2 ^ 51, rfl⟩
  rw [bits, Nat.even_add]
  simp [hfield]

/-- The pattern of a magnitude is worth the magnitude. -/
theorem worth_bits {b : Binary} (h : b.Fits) : worth b.bits = b.value := by
  obtain ⟨m, e⟩ := b
  obtain ⟨hleast, hle, hfull⟩ := h
  simp only at hleast hle hfull
  obtain ⟨k, rfl⟩ : ∃ k : ℕ, e = leastExponent + k := ⟨(e - leastExponent).toNat, by omega⟩
  have hbits : bits ⟨m, leastExponent + k⟩ = k * 2 ^ 52 + m := by
    simp [bits]
  rw [worth, hbits, ofBits]
  simp only [Nat.pow_eq]
  rcases Nat.lt_or_ge m (2 ^ 52) with hm | hm
  · -- below the full significand there is only the finest grid
    have hk : k = 0 := by omega
    subst hk
    rw [if_pos (by omega)]
    simp
  · rw [if_neg (by omega)]
    rcases Nat.lt_or_ge m (2 ^ 53) with hlt | hge
    · have hmod : (k * 2 ^ 52 + m) % 2 ^ 52 = m - 2 ^ 52 := by omega
      have hdiv : (k * 2 ^ 52 + m) / 2 ^ 52 - 1 = k := by omega
      rw [hmod, hdiv, Nat.add_sub_cancel' hm]
    · -- the significand has run over into the exponent
      obtain rfl : m = 2 ^ 53 := by omega
      have hmod : (k * 2 ^ 52 + 2 ^ 53) % 2 ^ 52 = 0 := by omega
      have hdiv : (k * 2 ^ 52 + 2 ^ 53) / 2 ^ 52 - 1 = k + 1 := by omega
      rw [hmod, hdiv, value, value]
      simp only
      push_cast
      rw [← add_assoc, zpow_add_one₀ two_ne_zero]
      ring

theorem worth_lt_succ (pattern : ℕ) : worth pattern < worth (pattern + 1) := by
  obtain ⟨⟨hleast, hle, hfull⟩, hlt⟩ := fits_ofBits pattern
  have hnext : Fits ⟨(ofBits pattern).significand + 1, (ofBits pattern).exponent⟩ :=
    ⟨hleast, hlt, hfull.imp_left Nat.le_succ_of_le⟩
  have hbits : bits ⟨(ofBits pattern).significand + 1, (ofBits pattern).exponent⟩
      = pattern + 1 := by
    rw [bits_succ]
    exact congrArg (· + 1) (bits_ofBits pattern)
  rw [← hbits, worth_bits hnext, worth, value, value]
  refine mul_lt_mul_of_pos_right ?_ (by positivity)
  exact_mod_cast Nat.lt_succ_self _

/-- **Magnitudes grow with their patterns.** -/
theorem strictMono_worth : StrictMono worth := strictMono_nat_of_lt_succ worth_lt_succ

/-! ## The nearest pattern -/

variable {q : ℚ} {p : ℕ}

/-- One pattern is nearer to a value than another one, or as near and even. -/
def Beats (q : ℚ) (pattern other : ℕ) : Prop :=
  |q - worth pattern| < |q - worth other| ∨
    |q - worth pattern| = |q - worth other| ∧ Even pattern

/-- A value is rounded to a pattern: to the nearest one, of two equally near ones to the even
one. -/
def IsNearest (q : ℚ) (pattern : ℕ) : Prop :=
  pattern ≤ infinityBits ∧ ∀ other ≤ infinityBits, other ≠ pattern → Beats q pattern other

/-- What is further below a value is less near. -/
theorem dist_lt_of_lt {o : ℕ} (ho : o < p) (hp : worth p ≤ q) : |q - worth p| < |q - worth o| := by
  have hlt := strictMono_worth ho
  rw [abs_of_nonneg (by linarith), abs_of_nonneg (by linarith)]
  linarith

/-- What is further above a value is less near. -/
theorem dist_lt_of_gt {o : ℕ} (ho : p < o) (hp : q ≤ worth p) : |q - worth p| < |q - worth o| := by
  have hlt := strictMono_worth ho
  rw [abs_of_nonpos (by linarith), abs_of_nonpos (by linarith)]
  linarith

/-- The pattern below a value beats all others if it beats the one above. -/
theorem beats_of_low (hlow : worth p ≤ q) (hhigh : q ≤ worth (p + 1)) (h : Beats q p (p + 1))
    {o : ℕ} (ho : o ≠ p) : Beats q p o := by
  rcases Nat.lt_or_gt_of_ne ho with hlt | hgt
  · exact Or.inl (dist_lt_of_lt hlt hlow)
  · rcases Nat.eq_or_lt_of_le hgt with rfl | hfar
    · exact h
    · have hdist := dist_lt_of_gt hfar hhigh
      rcases h with hnear | ⟨htie, -⟩
      · exact Or.inl (hnear.trans hdist)
      · exact Or.inl (htie ▸ hdist)

/-- The pattern above a value beats all others if it beats the one below. -/
theorem beats_of_high (hlow : worth p ≤ q) (hhigh : q ≤ worth (p + 1)) (h : Beats q (p + 1) p)
    {o : ℕ} (ho : o ≠ p + 1) : Beats q (p + 1) o := by
  rcases Nat.lt_or_gt_of_ne ho with hlt | hgt
  · rcases Nat.eq_or_lt_of_le (Nat.le_of_lt_succ hlt) with rfl | hfar
    · exact h
    · have hdist := dist_lt_of_lt hfar hlow
      rcases h with hnear | ⟨htie, -⟩
      · exact Or.inl (hnear.trans hdist)
      · exact Or.inl (htie ▸ hdist)
  · exact Or.inl (dist_lt_of_gt hgt hhigh)

theorem IsNearest.dist_le (h : IsNearest q p) {o : ℕ} (ho : o ≤ infinityBits) :
    |q - worth p| ≤ |q - worth o| := by
  by_cases hne : o = p
  · rw [hne]
  · rcases h.2 o ho hne with hlt | ⟨htie, -⟩
    · exact hlt.le
    · exact htie.le

/-- Of two patterns that are nearest, none is below the other: they would both be even, and the
pattern between them would be nearer. -/
theorem IsNearest.le (h : IsNearest q p) {o : ℕ} (ho : IsNearest q o) : o ≤ p := by
  by_contra hlt
  rw [not_le] at hlt
  have hnext : p + 1 ≠ o := by
    rintro rfl
    rcases h.2 (p + 1) ho.1 hlt.ne' with hnear | ⟨-, heven⟩
    · exact absurd (ho.dist_le h.1) (not_le.2 hnear)
    · rcases ho.2 p h.1 hlt.ne with hnear | ⟨-, hodd⟩
      · exact absurd (h.dist_le ho.1) (not_le.2 hnear)
      · exact Nat.even_add_one.1 hodd heven
  have hbetween : p + 1 < o := Nat.lt_of_le_of_ne hlt hnext
  rcases le_total q (worth (p + 1)) with hbelow | habove
  · exact absurd (ho.dist_le (hlt.trans_le ho.1)) (not_le.2 (dist_lt_of_gt hbetween hbelow))
  · exact absurd (h.dist_le (hlt.trans_le ho.1))
      (not_le.2 (dist_lt_of_lt (Nat.lt_succ_self p) habove))

end Binary

/-! ## Rounding -/

/-- The whole steps of the grid up to a value make a magnitude. -/
theorem fits_steps {num den : ℕ} (hnum : 0 < num) (hden : 0 < den) :
    let e := gridExponent (num / den)
    let steps := num * 2 ^ (-e).toNat / (den * 2 ^ e.toNat)
    Binary.Fits ⟨steps, e⟩ ∧ steps < 2 ^ 53 := by
  intro e steps
  have hpos : (0 : ℚ) < num / den := by positivity
  have hcast := cast_scaled num den e
  have hD : 0 < den * 2 ^ e.toNat := by positivity
  have hlog : Int.log 2 ((num : ℚ) / den) - 52 ≤ e := le_max_right _ _
  have hbelow : steps < 2 ^ 53 := by
    rw [Nat.div_lt_iff_lt_mul hD]
    have hlt : ((num * 2 ^ (-e).toNat : ℕ) : ℚ) / (den * 2 ^ e.toNat : ℕ) < (2 ^ 53 : ℕ) := by
      rw [hcast, div_lt_iff₀ (by positivity)]
      calc (num : ℚ) / den < 2 ^ (Int.log 2 ((num : ℚ) / den) + 1) :=
            Int.lt_zpow_succ_log_self one_lt_two _
        _ ≤ 2 ^ (((53 : ℕ) : ℤ) + e) := zpow_le_zpow_right₀ one_le_two (by omega)
        _ = (2 ^ 53 : ℕ) * 2 ^ e := by
          rw [zpow_add₀ two_ne_zero, zpow_natCast]
          norm_cast
    rw [div_lt_iff₀ (by positivity)] at hlt
    exact_mod_cast hlt
  refine ⟨⟨le_max_left _ _, hbelow.le, ?_⟩, hbelow⟩
  rcases max_choice Binary.leastExponent (Int.log 2 ((num : ℚ) / den) - 52) with hleast | hgrid
  · exact Or.inr hleast
  · left
    rw [Nat.le_div_iff_mul_le hD]
    have hle : ((2 ^ 52 : ℕ) : ℚ) ≤ ((num * 2 ^ (-e).toNat : ℕ) : ℚ) / (den * 2 ^ e.toNat : ℕ) := by
      rw [hcast, le_div_iff₀ (by positivity)]
      calc ((2 ^ 52 : ℕ) : ℚ) * 2 ^ e = 2 ^ (((52 : ℕ) : ℤ) + e) := by
            rw [zpow_add₀ two_ne_zero, zpow_natCast]
            norm_cast
        _ ≤ 2 ^ Int.log 2 ((num : ℚ) / den) := zpow_le_zpow_right₀ one_le_two (by
            have : e = Int.log 2 ((num : ℚ) / den) - 52 := hgrid
            omega)
        _ ≤ num / den := Int.zpow_log_le_self one_lt_two hpos
    rw [le_div_iff₀ (by positivity)] at hle
    exact_mod_cast hle

section Steps

variable {n d : ℕ} {e : ℤ} (hd : 0 < d) (hfits : Binary.Fits ⟨n / d, e⟩) (hlt : n / d < 2 ^ 53)

include hd hfits hlt

/-- A value of so many steps and a rest lies between two patterns, as far from them as the rest
says. -/
theorem worth_steps :
    let low := Binary.bits ⟨n / d, e⟩
    (Binary.worth low ≤ n / d * 2 ^ e ∧ (n / d * 2 ^ e : ℚ) ≤ Binary.worth (low + 1)) ∧
      |n / d * 2 ^ e - Binary.worth low| = (n % d : ℕ) / d * 2 ^ e ∧
      |n / d * 2 ^ e - Binary.worth (low + 1)| = (1 - (n % d : ℕ) / d) * 2 ^ e := by
  intro low
  have hstep : (0 : ℚ) < 2 ^ e := by positivity
  have hd' : (0 : ℚ) < d := by exact_mod_cast hd
  have hnext : Binary.Fits ⟨n / d + 1, e⟩ :=
    ⟨hfits.least, hlt, hfits.full.imp_left Nat.le_succ_of_le⟩
  have hlow : Binary.worth low = (n / d : ℕ) * 2 ^ e := Binary.worth_bits hfits
  have hhigh : Binary.worth (low + 1) = ((n / d : ℕ) + 1) * 2 ^ e := by
    rw [← Binary.bits_succ, Binary.worth_bits hnext, Binary.value]
    push_cast
    rfl
  have hvalue : (n : ℚ) / d * 2 ^ e = (n / d : ℕ) * 2 ^ e + (n % d : ℕ) / d * 2 ^ e := by
    have hsplit : (n : ℚ) = d * (n / d : ℕ) + (n % d : ℕ) := by
      exact_mod_cast (Nat.div_add_mod n d).symm
    rw [hsplit]
    field_simp
  have hrest : ((n % d : ℕ) : ℚ) / d < 1 := by
    rw [div_lt_one hd']
    exact_mod_cast Nat.mod_lt n hd
  have hbelow : (n : ℚ) / d * 2 ^ e - Binary.worth low = (n % d : ℕ) / d * 2 ^ e := by
    rw [hlow, hvalue, add_sub_cancel_left]
  have habove : (n : ℚ) / d * 2 ^ e - Binary.worth (low + 1)
      = -((1 - (n % d : ℕ) / d) * 2 ^ e) := by
    rw [hhigh, hvalue]
    ring
  have hnonneg : 0 ≤ ((n % d : ℕ) : ℚ) / d * 2 ^ e := by positivity
  have hpos : 0 < (1 - ((n % d : ℕ) : ℚ) / d) * 2 ^ e := mul_pos (sub_pos.2 hrest) hstep
  refine ⟨⟨by linarith, by linarith⟩, ?_, ?_⟩
  · rw [hbelow, abs_of_nonneg hnonneg]
  · rw [habove, abs_neg, abs_of_pos hpos]

/-- **Rounding the steps finds the pattern that beats all others**, which is the one below the value
or the one above it. -/
theorem beats_roundDiv :
    let rounded := Binary.bits ⟨roundDiv n d, e⟩
    rounded ≤ Binary.bits ⟨n / d, e⟩ + 1 ∧
      ∀ other ≠ rounded, Binary.Beats (n / d * 2 ^ e) rounded other := by
  obtain ⟨⟨hlow, hhigh⟩, hbelow, habove⟩ := worth_steps hd hfits hlt
  have hd' : (0 : ℚ) < d := by exact_mod_cast hd
  have hstep : (0 : ℚ) < 2 ^ e := by positivity
  have hcast : ∀ {a b : ℕ}, a < b → (a : ℚ) < b := fun h => by exact_mod_cast h
  have heven : Even (Binary.bits ⟨n / d, e⟩) ↔ Even (n / d) := Binary.even_bits_iff
  simp only [roundDiv]
  split
  · rename_i hless
    refine ⟨Nat.le_succ _, fun other => Binary.beats_of_low hlow hhigh (Or.inl ?_)⟩
    rw [hbelow, habove, mul_lt_mul_iff_left₀ hstep, lt_sub_iff_add_lt, ← add_div, div_lt_one hd']
    have := hcast hless
    push_cast at this
    linarith
  · split
    · rename_i hmore
      rw [Binary.bits_succ]
      refine ⟨le_refl _, fun other => Binary.beats_of_high hlow hhigh (Or.inl ?_)⟩
      rw [hbelow, habove, mul_lt_mul_iff_left₀ hstep, sub_lt_iff_lt_add, ← add_div, one_lt_div hd']
      have := hcast hmore
      push_cast at this
      linarith
    · rename_i hless hmore
      have htie : |n / d * 2 ^ e - Binary.worth (Binary.bits ⟨n / d, e⟩)|
          = |n / d * 2 ^ e - Binary.worth (Binary.bits ⟨n / d, e⟩ + 1)| := by
        have hhalf : (2 * (n % d : ℕ) : ℚ) = d := by
          have : 2 * (n % d) = d := by omega
          exact_mod_cast this
        rw [hbelow, habove]
        congr 1
        field_simp
        linarith
      rcases Nat.mod_two_eq_zero_or_one (n / d) with hzero | hone
      · rw [hzero, Nat.add_zero]
        refine ⟨Nat.le_succ _, fun other => Binary.beats_of_low hlow hhigh (Or.inr ⟨htie, ?_⟩)⟩
        exact heven.2 (Nat.even_iff.2 hzero)
      · rw [hone, Binary.bits_succ]
        refine ⟨le_refl _, fun other => Binary.beats_of_high hlow hhigh (Or.inr ⟨htie.symm, ?_⟩)⟩
        rw [Nat.even_add_one, heven, Nat.not_even_iff]
        exact hone

end Steps

/-- A fraction is rounded to the nearest pattern. -/
theorem isNearest_nearestTo {num den : ℕ} (hnum : 0 < num) (hden : 0 < den) :
    Binary.IsNearest (num / den) (nearestTo num den) := by
  obtain ⟨hfits, hlt⟩ := fits_steps hnum hden
  have hd : 0 < den * 2 ^ (gridExponent (num / den)).toNat := by positivity
  obtain ⟨hrounded, hbeats⟩ := beats_roundDiv hd hfits hlt
  obtain ⟨⟨hlow, -⟩, -⟩ := worth_steps hd hfits hlt
  have hvalue := cast_scaled num den (gridExponent (num / den))
  rw [eq_div_iff (by positivity)] at hvalue
  rw [hvalue] at hbeats hlow
  simp only [nearestTo]
  generalize Binary.bits ⟨roundDiv _ _, gridExponent _⟩ = rounded at *
  rcases Nat.lt_or_ge Binary.infinityBits rounded with hlarge | hfinite
  · -- the pattern below the value is that of infinity at least
    have hbelow := Nat.le_of_lt_succ (hlarge.trans_le hrounded)
    have hinfinite := Binary.strictMono_worth.monotone hbelow
    rw [min_eq_left hlarge.le]
    refine ⟨le_refl _, fun other hother hne => Or.inl ?_⟩
    exact Binary.dist_lt_of_lt (Nat.lt_of_le_of_ne hother hne) (hinfinite.trans hlow)
  · rw [min_eq_right hfinite]
    exact ⟨hfinite, fun other _ => hbeats other⟩

namespace Decimal

theorem isNearest_nearestBits (d : Decimal) : Binary.IsNearest d.value d.nearestBits := by
  by_cases hzero : d.digits = 0
  · have hvalue : d.value = Binary.worth 0 := by
      rw [digits_eq_zero_iff.1 hzero]
      simp [Binary.worth, Binary.ofBits, Binary.value]
    rw [nearestBits, if_pos hzero, hvalue]
    refine ⟨Nat.zero_le _, fun other _ hne => Or.inl ?_⟩
    exact Binary.dist_lt_of_gt (Nat.pos_of_ne_zero hne) (le_refl _)
  · rw [nearestBits_eq_nearestTo hzero, value_eq_div]
    exact isNearest_nearestTo (by positivity) (by positivity)

/-- **A decimal is rounded to the nearest double**, of two equally near ones to the even one. -/
theorem nearestBits_eq_iff {d : Decimal} {pattern : ℕ} :
    d.nearestBits = pattern ↔ Binary.IsNearest d.value pattern := by
  constructor
  · rintro rfl
    exact d.isNearest_nearestBits
  · exact fun h => Nat.le_antisymm (h.le d.isNearest_nearestBits) (d.isNearest_nearestBits.le h)

end Decimal

end ShaderGraph
