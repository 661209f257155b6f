import TreeCalc.Number.Binary
import TreeCalc.Number.Decimal

namespace TreeCalc.Number

/-- A decimal reads back as `b` when `b` is the nearest binary number to it. -/
def Decimal.readsBack (d : Decimal) (b : Binary) : Bool := d.magnitude.toBinary b.negative == b

/-- Of the two neighbours of `b` among decimals of `places` digits, the nearer one that reads back as `b`.
The larger neighbour counts as nearer when both are as near. -/
def Binary.shortestAt (b : Binary) (places : Nat) : Option Decimal :=
  let x := b.magnitude
  let scale := x.decimalExponent - (places - 1 : Nat)
  let y := x.scale 10 (-scale)
  let below : Decimal := ⟨y.floor, scale⟩
  let above : Decimal := ⟨y.floor + 1, scale⟩
  let (nearer, farther) := if y.twiceRest < y.den then (below, above) else (above, below)
  if nearer.readsBack b then some nearer
  else if farther.readsBack b then some farther
  else none

/-- The number itself, which is a decimal because ten is a multiple of two. -/
def Binary.exactDecimal (b : Binary) : Decimal :=
  match b.exponent with
  | .ofNat k => ⟨b.mantissa * Nat.pow 2 k, 0⟩
  | .negSucc k => ⟨b.mantissa * Nat.pow 5 (k + 1), .negSucc k⟩

/-- The decimal of fewest digits that reads back as `b`. Seventeen digits are always enough. -/
def Binary.shortest (b : Binary) : Decimal :=
  ((List.range' 1 17).findSome? b.shortestAt).getD b.exactDecimal

/-- Writes digits with a leading digit of exponent `e`: positionally, with at least one decimal, from `-4` up
to fifteen, else with an exponent. -/
def plainDigits (digits : List Char) (e : Int) : List Char :=
  if -4 ≤ e ∧ e < 16 then
    let (whole, fraction) := splitAtPoint digits e
    whole ++ '.' :: (if fraction.isEmpty then ['0'] else fraction)
  else pointed (digits.take 1) (digits.drop 1) ++ 'e' :: (toString e).toList

/-- The text of a number in which no two numbers look the same: the fewest digits that read back. -/
def exactText (x : Float) : String :=
  match decode x with
  | .nan => "NaN"
  | .infinite negative => if negative then "-inf" else "inf"
  | .finite b =>
    let size :=
      if b.mantissa = 0 then "0.0".toList
      else
        let d := b.shortest
        plainDigits (trimZeros d.text) d.exponent
    String.ofList (if b.negative then '-' :: size else size)

end TreeCalc.Number
