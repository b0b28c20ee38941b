import ShaderGraph.Timeline.Scalar

/-!
# Exact timelines

Rational numbers as the numbers of a timeline: every operation is exact, and the tests are those
of the order.
-/

namespace ShaderGraph

instance : Scalar Rat where
  ofNat n := n
  negligible := mkRat 1 1000000000
  lt x y := x < y
  le x y := x ≤ y
  sortsBefore x y := x ≤ y
  upper x y := if x ≤ y then y else x
  lower x y := if y ≤ x then y else x
  remainder x y := x - y * ((x / y).floor : Int)

namespace Scalar

@[simp] theorem ofNat_rat (n : Nat) : (ofNat n : Rat) = n := rfl

@[simp] theorem lt_rat (x y : Rat) : lt x y = decide (x < y) := rfl

@[simp] theorem le_rat (x y : Rat) : le x y = decide (x ≤ y) := rfl

@[simp] theorem sortsBefore_rat (x y : Rat) : sortsBefore x y = decide (x ≤ y) := rfl

end Scalar

end ShaderGraph
