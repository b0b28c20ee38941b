import ShaderGraph.Decimal.Binary

/-!
# Numbers on a timeline

Curves and lanes are evaluated over any type with the operations of `Scalar`. Documents and the
running evaluator use doubles, whose instance is here; rational numbers are an instance too, over
which evaluation is exact.

Comparisons are tests and not an order: no number passes a test against a double that is not a
number. Sorting needs a total order, which `sortsBefore` is, and `upper` and `lower` take the larger
and the smaller of two numbers and pass over an operand that is not a number. Of equal numbers they
take the second, which shows in the sign of a zero: a number that reaches a bound becomes the bound.
-/

namespace ShaderGraph

/-- The arithmetic of a timeline. -/
class Scalar (α : Type) extends Add α, Sub α, Mul α, Div α, Neg α where
  ofNat : Nat → α
  /-- A segment no longer than this counts as having no length. -/
  negligible : α
  lt : α → α → Bool
  le : α → α → Bool
  sortsBefore : α → α → Bool
  upper : α → α → α
  lower : α → α → α
  /-- What is left of a number that is not negative after taking a positive one out of it as often
  as possible. -/
  remainder : α → α → α

namespace Double

/-- The place of a double in the total order, where negative zero comes before positive zero. -/
def rank (x : Float) : Nat :=
  let pattern := x.toBits.toNat
  if Nat.pow 2 63 ≤ pattern then Nat.pow 2 64 - 1 - pattern else Nat.pow 2 63 + pattern

/-- The larger of two doubles, the second of equal ones. -/
def upper (x y : Float) : Float := if x.isNaN || x ≤ y then y else x

/-- The smaller of two doubles, the second of equal ones. -/
def lower (x y : Float) : Float := if x.isNaN || y ≤ x then y else x

/-- The magnitude `m * 2 ^ e` with `m` below `2 ^ 53`, as a double stores it. -/
def stored (m : Nat) (e : Int) : Binary :=
  let shift := min (52 - m.log2 : Int) (e - Binary.leastExponent)
  ⟨m * Nat.pow 2 shift.toNat, e - shift.toNat⟩

/-- What is left of a double after taking another out of it as often as possible, with the sign of
the first. The result is exact. -/
def remainder (x y : Float) : Float :=
  match ofFloat x, ofFloat y with
  | .finite negative a, .finite _ b =>
    if b.significand = 0 then 0.0 / 0.0
    else
      let e := min a.exponent b.exponent
      let left := a.significand * Nat.pow 2 (a.exponent - e).toNat
        % (b.significand * Nat.pow 2 (b.exponent - e).toNat)
      assemble negative (if left = 0 then 0 else (stored left e).bits)
  | .finite _ _, .infinite _ => x
  | _, _ => 0.0 / 0.0

end Double

instance : Scalar Float where
  ofNat n := Float.ofNat n
  negligible := 1e-9
  lt x y := x < y
  le x y := x ≤ y
  sortsBefore x y := Double.rank x ≤ Double.rank y
  upper := Double.upper
  lower := Double.lower
  remainder := Double.remainder

end ShaderGraph
