import TreeCalc.Number.Binary
import TreeCalc.Number.Decimal

namespace TreeCalc.Number

/-- The number that a word of digits stands for. -/
def digitsValue (digits : List Char) : Nat := digits.foldl (fun n c => 10 * n + (c.toNat - '0'.toNat)) 0

/-- Takes a sign off the front; without one the number is positive. -/
def readSign : List Char → Bool × List Char
  | '-' :: rest => (true, rest)
  | '+' :: rest => (false, rest)
  | text => (false, text)

/-- Takes the digits off the front. -/
def readDigits (text : List Char) : List Char × List Char :=
  (text.takeWhile Char.isDigit, text.dropWhile Char.isDigit)

/-- The exponent at the end of a number: none at all, or a letter `e`, a sign if need be, and digits. -/
def readExponent : List Char → Option Int
  | [] => some 0
  | mark :: text =>
    if mark == 'e' || mark == 'E' then
      let (negative, rest) := readSign text
      let (digits, after) := readDigits rest
      if digits.isEmpty || !after.isEmpty then none
      else some (if negative then -(digitsValue digits : Int) else digitsValue digits)
    else none

/-- Digits with at most one point among, before or after them, and an exponent if need be. -/
def readDecimal (text : List Char) : Option Decimal := do
  let (whole, rest) := readDigits text
  let (fraction, rest) := match rest with
    | '.' :: after => readDigits after
    | other => ([], other)
  if whole.isEmpty && fraction.isEmpty then none
  else
    let exponent ← readExponent rest
    some ⟨digitsValue (whole ++ fraction), exponent - fraction.length⟩

/-- The float nearest to a decimal. Decimals far beyond the largest or below the least float are settled by
their exponent alone. -/
def Decimal.toFloat (negative : Bool) (d : Decimal) : Float :=
  if d.digits = 0 ∨ d.exponent < -400 then (Fraction.ofNat 0).toFloat negative
  else if 400 < d.exponent then infinity negative
  else d.magnitude.toFloat negative

/-- Reads a number: after an optional sign a decimal, or one of the words `inf`, `infinity` and `nan` in
letters of either case. -/
def read? (text : String) : Option Float :=
  let (negative, rest) := readSign text.toList
  let word := rest.map Char.toLower
  if word == "inf".toList || word == "infinity".toList then some (infinity negative)
  else if word == "nan".toList then some notANumber
  else (readDecimal rest).map (Decimal.toFloat negative)

end TreeCalc.Number
