import TreeCalc.Number.Binary
import TreeCalc.Number.Decimal

namespace TreeCalc.Number

/-- How many digits a displayed number has at most. -/
def displayPlaces : Nat := 6

/-- An exponent has a sign and at least two digits. -/
def signedExponent (e : Int) : List Char :=
  let digits := Nat.toDigits 10 e.natAbs
  (if e < 0 then '-' else '+') :: (List.replicate (2 - digits.length) '0' ++ digits)

/-- Writes digits with a leading digit of exponent `e`: positionally from `-4` up to the number of displayed
digits, else with an exponent, and never with zeros at the end of a fraction. -/
def generalDigits (digits : List Char) (e : Int) : List Char :=
  if -4 ≤ e ∧ e < displayPlaces then
    let (whole, fraction) := splitAtPoint digits e
    pointed whole (trimZeros fraction)
  else pointed (digits.take 1) (trimZeros (digits.drop 1)) ++ 'e' :: signedExponent e

/-- The displayed text of a positive number. -/
def generalMagnitude (x : Fraction) : List Char :=
  let d := x.toDecimal displayPlaces
  generalDigits d.text d.exponent

/-- The displayed text of a number: six significant digits of its exact value. -/
def general (x : Float) : String :=
  match decode x with
  | .nan => "nan"
  | .infinite negative => if negative then "-inf" else "inf"
  | .finite b =>
    let size := if b.mantissa = 0 then ['0'] else generalMagnitude b.magnitude
    String.ofList (if b.negative then '-' :: size else size)

end TreeCalc.Number
