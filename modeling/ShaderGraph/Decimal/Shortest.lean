import ShaderGraph.Decimal.Binary

/-!
# The fewest digits that read back

`Binary.shortest` writes a magnitude with as few digits as still round to it, and among equally
short decimals with the nearest one. Two decimals of one length can be equally near; which of
them is taken is the choice of the format that writes the number.

For one digit, two digits and so on, the search looks at the two neighbours of the magnitude on
the grid of decimals with that many digits. The first that reads back is the answer. Should none
do within seventeen digits, the magnitude is written out in full.
-/

namespace ShaderGraph

/-- Which of two equally near decimals is written. -/
inductive TieRule where
  /-- The one whose last digit is even. -/
  | toEven
  /-- The larger one. -/
  | upward
deriving DecidableEq, Repr

namespace Decimal

/-- Moves the trailing zeros of the digits into the exponent. -/
def dropZeros (d : Decimal) : Decimal :=
  if h : 0 < d.digits ∧ d.digits % 10 = 0 then
    dropZeros ⟨d.digits / 10, d.exponent + 1⟩
  else d
termination_by d.digits
decreasing_by exact Nat.div_lt_self h.1 (by decide)

/-- The digits as characters. -/
def digitChars (d : Decimal) : List Char := Nat.toDigits 10 d.digits

/-- The exponent of the first digit in scientific notation. -/
def leadingExponent (d : Decimal) : Int := d.exponent + (d.digitChars.length - 1 : Nat)

end Decimal

namespace Binary

/-- The number of digits before the point, negative or zero for a magnitude below one: the least
`k` with the magnitude below `10 ^ k`. Every positive magnitude times `10 ^ 324` is above one, and
rounding that down keeps its number of digits. -/
def decimalWidth (b : Binary) : Int :=
  (Nat.toDigits 10 (b.numerator * Nat.pow 10 324 / b.denominator)).length - 324

/-- The two neighbours of the magnitude among the multiples of `10 ^ e`, the nearer one first. -/
def neighbours (tie : TieRule) (b : Binary) (e : Int) : List Decimal :=
  let num := b.numerator * Nat.pow 10 (-e).toNat
  let den := b.denominator * Nat.pow 10 e.toNat
  let low := num / den
  let twice := 2 * (num % den)
  let lowFirst := twice < den ∨ (twice = den ∧ tie = .toEven ∧ low % 2 = 0)
  if lowFirst then [⟨low, e⟩, ⟨low + 1, e⟩] else [⟨low + 1, e⟩, ⟨low, e⟩]

/-- Whether a decimal rounds to this magnitude. -/
def readsBack (b : Binary) (d : Decimal) : Bool :=
  d.nearestBits == b.bits

/-- The shortest decimal that reads back, without trailing zeros. -/
def shortest (tie : TieRule) (b : Binary) : Decimal :=
  let width := b.decimalWidth
  let found := (List.range 17).findSome? fun n =>
    (b.neighbours tie (width - (n + 1 : Nat))).find? b.readsBack
  (found.getD b.toDecimal).dropZeros

end Binary

end ShaderGraph
