namespace TreeCalc.Number

/-- The non-negative number `num / den`. Every fraction made here has a positive denominator. -/
structure Fraction where
  num : Nat
  den : Nat

namespace Fraction

def ofNat (n : Nat) : Fraction := ⟨n, 1⟩

/-- Multiplies by a power of the base, whose exponent may be negative. -/
def scale (x : Fraction) (base : Nat) : Int → Fraction
  | .ofNat k => ⟨x.num * Nat.pow base k, x.den⟩
  | .negSucc k => ⟨x.num, x.den * Nat.pow base (k + 1)⟩

def floor (x : Fraction) : Nat := x.num / x.den

/-- Twice the part that `floor` leaves out, in units of `1 / den`. -/
def twiceRest (x : Fraction) : Nat := 2 * (x.num % x.den)

/-- The nearest natural number; a half goes to the even neighbour. -/
def round (x : Fraction) : Nat :=
  if x.twiceRest < x.den then x.floor
  else if x.den < x.twiceRest then x.floor + 1
  else x.floor + x.floor % 2

end Fraction

/-- How many decimal digits `n` has, zero having none. -/
def digitCount (n : Nat) : Nat :=
  if n = 0 then 0 else digitCount (n / 10) + 1

/-- The exponent of the largest power of ten that is at most `x`, for `x` positive. -/
def Fraction.decimalExponent (x : Fraction) : Int :=
  if x.den ≤ x.num then (digitCount x.floor : Int) - 1
  else -(digitCount ((x.den - 1) / x.num) : Int)

end TreeCalc.Number
