import ShaderGraph.Decimal.Numeral

/-!
# Number literals

A float literal always has a fraction, so that it is not taken for an integer. Numbers with a
fractional part are written out positionally, whole numbers below `10 ^ 15` with a zero after the
point, and larger ones with an exponent. The digits are the fewest that read back, of two equally
near ones the larger. A number that is not finite is written as zero.
-/

namespace ShaderGraph.Glsl

/-- Whole numbers from here on are written with an exponent. -/
def wholeLimit : Nat := Nat.pow 10 15

/-- The literal of a finite number. -/
def numeralOf (negative : Bool) (magnitude : Binary) : Numeral :=
  if !magnitude.isWhole then Numeral.positional negative (magnitude.shortest .upward)
  else if magnitude.floor < wholeLimit then
    ⟨negative, Nat.toDigits 10 magnitude.floor, ['0'], []⟩
  else
    let d := magnitude.shortest .upward
    (Numeral.scientific negative d (Nat.toDigits 10 d.leadingExponent.toNat)).withFraction

/-- The literal of a number. -/
def numeral (x : Float) : Numeral :=
  match Double.ofFloat x with
  | .finite negative magnitude => numeralOf negative magnitude
  | _ => ⟨false, ['0'], ['0'], []⟩

/-- The text of a float literal. -/
def floatLiteral (x : Float) : String := String.ofList (numeral x).text

/-- A number cut off to a whole one that fits in 64 bits. Those beyond the range go to its ends, and
what is not finite to zero. -/
def truncate (x : Float) : Int :=
  match Double.ofFloat x with
  | .finite false magnitude => Int.ofNat (min magnitude.floor (Nat.pow 2 63 - 1))
  | .finite true magnitude => -Int.ofNat (min magnitude.floor (Nat.pow 2 63))
  | _ => 0

/-- The text of an integer literal. -/
def intLiteral (x : Float) : String :=
  let n := truncate x
  (if n < 0 then "-" else "") ++ n.natAbs.repr

end ShaderGraph.Glsl
