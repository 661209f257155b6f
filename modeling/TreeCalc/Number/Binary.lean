import TreeCalc.Number.Fraction

namespace TreeCalc.Number

/-- The number `± mantissa * 2 ^ exponent`. -/
structure Binary where
  negative : Bool
  mantissa : Nat
  exponent : Int
  deriving DecidableEq

/-- What the bits of a float stand for. -/
inductive Form where
  | nan
  | infinite (negative : Bool)
  | finite (value : Binary)
  deriving DecidableEq

/-- Reads the sign, the eleven exponent bits and the fifty-two fraction bits. A finite float comes out with
its mantissa below `2 ^ 53`, and at least `2 ^ 52` unless the exponent is the least one. -/
def decode (x : Float) : Form :=
  let bits : Nat := x.toBits.toNat
  let negative := decide (Nat.pow 2 63 ≤ bits)
  let biased : Nat := bits / Nat.pow 2 52 % Nat.pow 2 11
  let fraction : Nat := bits % Nat.pow 2 52
  if biased = 2047 then
    if fraction = 0 then .infinite negative else .nan
  else if biased = 0 then .finite ⟨negative, fraction, -1074⟩
  else .finite ⟨negative, Nat.pow 2 52 + fraction, (biased : Int) - 1075⟩

/-- The size of the number, without its sign. -/
def Binary.magnitude (b : Binary) : Fraction := (Fraction.ofNat b.mantissa).scale 2 b.exponent

/-- The exponent with which `x` has a mantissa of fifty-three bits, or the least exponent if that is larger. -/
def Fraction.binaryExponent (x : Fraction) : Int :=
  let guess : Int := (x.num.log2 : Int) - x.den.log2 - 52
  let exact := if (x.scale 2 (-guess)).floor < Nat.pow 2 52 then guess - 1 else guess
  max exact (-1074)

/-- The binary number nearest to `x`, a half going to the even mantissa, as if exponents had no upper end. -/
def Fraction.toBinary (negative : Bool) (x : Fraction) : Binary :=
  let exponent := x.binaryExponent
  let mantissa := (x.scale 2 (-exponent)).round
  if mantissa = Nat.pow 2 53 then ⟨negative, Nat.pow 2 52, exponent + 1⟩ else ⟨negative, mantissa, exponent⟩

/-- Packs a number in the form that `decode` gives. One that is too large becomes infinite. -/
def Binary.encode (b : Binary) : Float :=
  let biased := if b.mantissa < Nat.pow 2 52 then 0 else (b.exponent + 1075).toNat
  let sign := if b.negative then Nat.pow 2 63 else 0
  let rest := if 2047 ≤ biased then 2047 * Nat.pow 2 52 else biased * Nat.pow 2 52 + b.mantissa % Nat.pow 2 52
  Float.ofBits (UInt64.ofNat (sign + rest))

/-- The float nearest to `x`, with the given sign. -/
def Fraction.toFloat (negative : Bool) (x : Fraction) : Float := (x.toBinary negative).encode

def notANumber : Float := 0.0 / 0.0

def infinity (negative : Bool) : Float := if negative then -1.0 / 0.0 else 1.0 / 0.0

end TreeCalc.Number
