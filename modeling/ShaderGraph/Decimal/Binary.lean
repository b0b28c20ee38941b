/-!
# Doubles and decimals, exactly

A double is taken apart into a sign and a magnitude `significand * 2 ^ exponent`, and a decimal
is `digits * 10 ^ exponent`. `Decimal.nearestBits` rounds a decimal to a double, to nearest with
ties to even, in natural numbers only. Reading a number rounds by it, and writing a number picks
among the decimals that it sends back to the same double.

A magnitude is identified with its bit pattern below the sign bit: magnitudes are ordered as their
patterns are, so a significand that rounds up to the next power of two carries into the exponent
field by itself.
-/

namespace ShaderGraph

/-- A finite magnitude `significand * 2 ^ exponent` of a double. -/
structure Binary where
  significand : Nat
  exponent : Int
deriving DecidableEq, Repr

/-- What a double stands for. -/
inductive Double where
  | nan
  | infinite (negative : Bool)
  | finite (negative : Bool) (magnitude : Binary)
deriving DecidableEq, Repr

/-- The decimal `digits * 10 ^ exponent`. -/
structure Decimal where
  digits : Nat
  exponent : Int
deriving DecidableEq, Repr

namespace Binary

/-- The least exponent of a double. -/
def leastExponent : Int := -1074

/-- The bit pattern of infinity, just above that of the largest finite magnitude. -/
def infinityBits : Nat := 2047 * Nat.pow 2 52

/-- The bit pattern of a magnitude. -/
def bits (b : Binary) : Nat :=
  (b.exponent - leastExponent).toNat * Nat.pow 2 52 + b.significand

/-- The magnitude with a given bit pattern below that of infinity. -/
def ofBits (pattern : Nat) : Binary :=
  if pattern < Nat.pow 2 52 then ⟨pattern, leastExponent⟩
  else ⟨Nat.pow 2 52 + pattern % Nat.pow 2 52, leastExponent + (pattern / Nat.pow 2 52 - 1 : Nat)⟩

/-- The numerator of the magnitude as a fraction. -/
def numerator (b : Binary) : Nat := b.significand * Nat.pow 2 b.exponent.toNat

/-- The denominator of the magnitude as a fraction. -/
def denominator (b : Binary) : Nat := Nat.pow 2 (-b.exponent).toNat

/-- Whether the magnitude is a whole number. -/
def isWhole (b : Binary) : Bool := b.numerator % b.denominator == 0

/-- The magnitude rounded down to a whole number. -/
def floor (b : Binary) : Nat := b.numerator / b.denominator

/-- The magnitude written out as a decimal, with nothing lost. -/
def toDecimal (b : Binary) : Decimal :=
  ⟨b.significand * Nat.pow 2 b.exponent.toNat * Nat.pow 5 (-b.exponent).toNat, min b.exponent 0⟩

end Binary

namespace Double

/-- Takes a double apart. -/
def ofFloat (x : Float) : Double :=
  let pattern := x.toBits.toNat
  let negative := Nat.pow 2 63 ≤ pattern
  let magnitude := pattern % Nat.pow 2 63
  if magnitude < Binary.infinityBits then .finite negative (.ofBits magnitude)
  else if magnitude = Binary.infinityBits then .infinite negative
  else .nan

/-- The double with a sign and the bit pattern of a magnitude. -/
def assemble (negative : Bool) (magnitude : Nat) : Float :=
  Float.ofBits ((if negative then Nat.pow 2 63 else 0) + magnitude).toUInt64

end Double

/-- The quotient rounded to the nearest whole number, a half to the even one. -/
def roundDiv (num den : Nat) : Nat :=
  let quotient := num / den
  let twice := 2 * (num % den)
  if twice < den then quotient
  else if den < twice then quotient + 1
  else quotient + quotient % 2

/-- The exponent `e` with `2 ^ e ≤ num / den < 2 ^ (e + 1)`, for a positive fraction. -/
def binaryLog (num den : Nat) : Int :=
  let guess : Int := num.log2 - den.log2
  if num * Nat.pow 2 (-guess).toNat < den * Nat.pow 2 guess.toNat then guess - 1 else guess

namespace Decimal

/-- The bit pattern of the magnitude nearest to a decimal, ties to the even one. Decimals so large
or so small that the answer is plain are answered without writing out their power of ten. -/
def nearestBits (d : Decimal) : Nat :=
  if d.digits = 0 then 0
  else if 400 < d.exponent then Binary.infinityBits
  else if d.exponent + d.digits.log2 < -400 then 0
  else
    let num := d.digits * Nat.pow 10 d.exponent.toNat
    let den := Nat.pow 10 (-d.exponent).toNat
    let e := max Binary.leastExponent (binaryLog num den - 52)
    let m := roundDiv (num * Nat.pow 2 (-e).toNat) (den * Nat.pow 2 e.toNat)
    min Binary.infinityBits (Binary.bits ⟨m, e⟩)

end Decimal

end ShaderGraph
