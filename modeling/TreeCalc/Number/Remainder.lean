import TreeCalc.Number.Binary

namespace TreeCalc.Number

/-- What is left of `x` after taking away `y` as often as it fits, exactly and with the sign of `x`. -/
def remainder (x y : Float) : Float :=
  match decode x, decode y with
  | .finite a, .finite b =>
    if b.mantissa = 0 then notANumber
    else
      let unit := min a.exponent b.exponent
      let left := a.mantissa * Nat.pow 2 (a.exponent - unit).toNat
      let right := b.mantissa * Nat.pow 2 (b.exponent - unit).toNat
      ((Fraction.ofNat (left % right)).scale 2 unit).toFloat a.negative
  | .finite _, .infinite _ => x
  | _, _ => notANumber

end TreeCalc.Number
