import ShaderGraph.Decimal.Shortest

/-!
# Numerals

A numeral is a number as it is written: a sign, the digits before the point, the digits after it,
and the exponent with its sign. `Numeral.text` writes it, `Numeral.toDecimal` is the decimal it
denotes and `Numeral.toFloat?` the nearest double. The ways to lay out the digits of a decimal
are the positional and the scientific one.
-/

namespace ShaderGraph

/-- A number as written. An empty fraction has no point and an empty exponent no mark. -/
structure Numeral where
  negative : Bool
  whole : List Char
  fraction : List Char
  exponent : List Char
deriving DecidableEq, Repr

/-- The number that a run of digits stands for. -/
def natOfDigits (digits : List Char) : Nat :=
  digits.foldl (fun n c => 10 * n + (c.toNat - '0'.toNat)) 0

namespace Numeral

/-- The characters of a numeral. -/
def text (n : Numeral) : List Char :=
  (if n.negative then ['-'] else []) ++ n.whole
    ++ (if n.fraction.isEmpty then [] else '.' :: n.fraction)
    ++ (if n.exponent.isEmpty then [] else 'e' :: n.exponent)

/-- The exponent that is written. -/
def writtenExponent (n : Numeral) : Int :=
  match n.exponent with
  | '-' :: digits => -(natOfDigits digits : Int)
  | '+' :: digits => natOfDigits digits
  | digits => natOfDigits digits

/-- The magnitude that a numeral denotes. -/
def toDecimal (n : Numeral) : Decimal :=
  ⟨natOfDigits (n.whole ++ n.fraction), n.writtenExponent - n.fraction.length⟩

/-- The nearest double, where that is finite. -/
def toFloat? (n : Numeral) : Option Float :=
  let bits := n.toDecimal.nearestBits
  if bits < Binary.infinityBits then some (Double.assemble n.negative bits) else none

/-- The natural number that is written with digits alone. -/
def toNat? (n : Numeral) : Option Nat :=
  if n.negative || !n.fraction.isEmpty || !n.exponent.isEmpty then none
  else some (natOfDigits n.whole)

/-- The digits of a decimal written with a point and no exponent. -/
def positional (negative : Bool) (d : Decimal) : Numeral :=
  let digits := d.digitChars
  let point : Int := digits.length + d.exponent
  if 0 ≤ d.exponent then
    ⟨negative, digits ++ List.replicate d.exponent.toNat '0', [], []⟩
  else if 0 < point then
    ⟨negative, digits.take point.toNat, digits.drop point.toNat, []⟩
  else
    ⟨negative, ['0'], List.replicate (-point).toNat '0' ++ digits, []⟩

/-- The digits of a decimal written with one digit before the point and the given exponent. -/
def scientific (negative : Bool) (d : Decimal) (exponent : List Char) : Numeral :=
  ⟨negative, d.digitChars.take 1, d.digitChars.drop 1, exponent⟩

/-- The numeral with a fraction, `0` where it has none. -/
def withFraction (n : Numeral) : Numeral :=
  if n.fraction.isEmpty then { n with fraction := ['0'] } else n

end Numeral

end ShaderGraph
