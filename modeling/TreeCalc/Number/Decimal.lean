import TreeCalc.Number.Fraction

namespace TreeCalc.Number

/-- The number `digits * 10 ^ scale`. -/
structure Decimal where
  digits : Nat
  scale : Int
  deriving DecidableEq

namespace Decimal

def magnitude (d : Decimal) : Fraction := (Fraction.ofNat d.digits).scale 10 d.scale

/-- The exponent of the leading digit. -/
def exponent (d : Decimal) : Int := d.scale + digitCount d.digits - 1

/-- The digits as characters, the leading one first. -/
def text (d : Decimal) : List Char := Nat.toDigits 10 d.digits

end Decimal

/-- The decimal of `places` significant digits nearest to `x`; a half goes to the even neighbour. -/
def Fraction.toDecimal (places : Nat) (x : Fraction) : Decimal :=
  let scale := x.decimalExponent - (places - 1 : Nat)
  let digits := (x.scale 10 (-scale)).round
  if digits = Nat.pow 10 places then ⟨Nat.pow 10 (places - 1), scale + 1⟩ else ⟨digits, scale⟩

/-- Drops the zeros at the end. -/
def trimZeros (digits : List Char) : List Char := (digits.reverse.dropWhile (· == '0')).reverse

/-- A point divides the whole digits from the fraction, and is left out when there is no fraction. -/
def pointed (whole fraction : List Char) : List Char :=
  if fraction.isEmpty then whole else whole ++ '.' :: fraction

/-- Cuts the digits of a number whose leading digit has the given exponent where the point stands, filling up
with zeros on either side. -/
def splitAtPoint (digits : List Char) : Int → List Char × List Char
  | .ofNat e => (digits.take (e + 1) ++ List.replicate (e + 1 - digits.length) '0', digits.drop (e + 1))
  | .negSucc e => (['0'], List.replicate e '0' ++ digits)

end TreeCalc.Number
