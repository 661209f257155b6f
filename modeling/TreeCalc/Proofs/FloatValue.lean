import Mathlib.Algebra.Order.Ring.Abs
import Mathlib.Data.Rat.Cast.Order
import Mathlib.Algebra.Order.Field.Power
import TreeCalc.Number.Binary

namespace TreeCalc.Number

open Float.Model (UnpackedFloat)
open Float.Model.UnpackedFloat (Sign)

/-- The exact value of a float: its mantissa times its power of two, with its sign. -/
def exactValue (x : Float) : ℚ :=
  match x.toModel.unpack with
  | .finite .negative mantissa exponent _ => -(mantissa * 2 ^ exponent)
  | .finite .positive mantissa exponent _ => mantissa * 2 ^ exponent
  | _ => 0

def isNegative : Sign → Bool
  | .negative => true
  | .positive => false

/-- The form of a float that has been taken apart. -/
def formOf : UnpackedFloat → Form
  | .notANumber => .nan
  | .infinity sign => .infinite (isNegative sign)
  | .zero sign => .finite ⟨isNegative sign, 0, -1074⟩
  | .finite sign mantissa exponent _ => .finite ⟨isNegative sign, mantissa, exponent⟩

theorem toNat_unpackMantissa (b : BitVec Float.Model.Format.binary64.numBits) :
    (UnpackedFloat.unpackMantissa b).toNat = b.toNat % Nat.pow 2 52 :=
  (BitVec.toNat_cast _ _).trans (BitVec.extractLsb'_toNat 0 52 b)

theorem toNat_unpackExponent (b : BitVec Float.Model.Format.binary64.numBits) :
    (UnpackedFloat.unpackExponent b).toNat = b.toNat / Nat.pow 2 52 % Nat.pow 2 11 := by
  have bits := BitVec.extractLsb'_toNat 52 11 b
  rw [Nat.shiftRight_eq_div_pow] at bits
  exact (BitVec.toNat_cast _ _).trans bits

theorem isNegative_unpackSign (b : BitVec Float.Model.Format.binary64.numBits) :
    isNegative (Sign.ofBitVec (UnpackedFloat.unpackSign b)) = decide (Nat.pow 2 63 ≤ b.toNat) := by
  have bits := BitVec.extractLsb'_toNat 63 1 b
  rw [Nat.shiftRight_eq_div_pow] at bits
  have value : (UnpackedFloat.unpackSign b).toNat = b.toNat / 2 ^ 63 % 2 := (BitVec.toNat_cast _ _).trans bits
  have bound : b.toNat < 2 ^ 64 := b.isLt
  have large : Nat.pow 2 63 = 2 ^ 63 := rfl
  rw [Sign.ofBitVec, large]
  split
  · rename_i clear
    rw [clear] at value
    have small : b.toNat < 2 ^ 63 := by
      simp only [BitVec.toNat_ofNat] at value
      omega
    exact (decide_eq_false (by omega)).symm
  · rename_i set
    have nonzero : b.toNat / 2 ^ 63 % 2 ≠ 0 := by
      intro zero
      rw [zero] at value
      exact set (BitVec.eq_of_toNat_eq value)
    exact (decide_eq_true (by omega)).symm

/-- Reading the bits takes a float apart as the float's own meaning does. -/
theorem decode_eq_formOf (x : Float) : decode x = formOf x.toModel.unpack := by
  obtain ⟨b, whole⟩ : ∃ b : BitVec Float.Model.Format.binary64.numBits, b = x.toModel.toBits.toBitVec := ⟨_, rfl⟩
  have unpacked : x.toModel.unpack = UnpackedFloat.unpack Float.Model.Format.binary64 b := by
    rw [whole]
    rfl
  have bits : x.toBits.toNat = b.toNat := by
    rw [whole]
    rfl
  unfold decode
  simp only [bits, ← toNat_unpackMantissa, ← toNat_unpackExponent, ← isNegative_unpackSign]
  rw [unpacked]
  delta UnpackedFloat.unpack
  dsimp only
  have isSpecial : (UnpackedFloat.unpackExponent b).toNat = 2047 ↔ UnpackedFloat.unpackExponent b = -1#11 :=
    @BitVec.toNat_inj 11 _ (-1#11)
  have isLeast : (UnpackedFloat.unpackExponent b).toNat = 0 ↔ UnpackedFloat.unpackExponent b = 0#11 :=
    @BitVec.toNat_inj 11 _ 0#11
  have isClear : (UnpackedFloat.unpackMantissa b).toNat = 0 ↔ UnpackedFloat.unpackMantissa b = 0#52 :=
    @BitVec.toNat_inj 52 _ 0#52
  by_cases special : UnpackedFloat.unpackExponent b = -1#11
  · rw [if_pos special, if_pos (isSpecial.mpr special)]
    by_cases clear : UnpackedFloat.unpackMantissa b = 0#52
    · rw [if_pos clear, if_pos (isClear.mpr clear)]
      rfl
    · rw [if_neg clear, if_neg (mt isClear.mp clear)]
      rfl
  · rw [if_neg special, if_neg (mt isSpecial.mp special)]
    by_cases least : UnpackedFloat.unpackExponent b = 0#11
    · rw [if_pos least, if_pos (isLeast.mpr least)]
      by_cases clear : UnpackedFloat.unpackMantissa b = 0#52
      · rw [dif_pos clear, clear]
        rfl
      · rw [dif_neg clear, least]
        rfl
    · rw [if_neg least, if_neg (mt isLeast.mp least)]
      have leading : (1#1 ++ UnpackedFloat.unpackMantissa b).toNat =
          Nat.pow 2 52 + (UnpackedFloat.unpackMantissa b).toNat := by
        rw [BitVec.toNat_append, ← Nat.shiftLeft_add_eq_or_of_lt (UnpackedFloat.unpackMantissa b).isLt]
        rfl
      dsimp only [formOf]
      rw [leading]
      rfl

/-- The mantissa of a finite float has at most fifty-three bits, and its exponent is within the float's range. -/
theorem bounds_of_decode {x : Float} {b : Binary} (form : decode x = .finite b) :
    b.mantissa < 2 ^ 53 ∧ -1074 ≤ b.exponent ∧ b.exponent ≤ 971 := by
  have fraction : x.toBits.toNat % Nat.pow 2 52 < 2 ^ 52 := Nat.mod_lt _ (by decide)
  have biased : x.toBits.toNat / Nat.pow 2 52 % Nat.pow 2 11 < 2 ^ 11 := Nat.mod_lt _ (by decide)
  have unit : Nat.pow 2 52 = 2 ^ 52 := rfl
  simp only [decode] at form
  split at form
  · split at form <;> cases form
  · split at form
    · obtain rfl := Form.finite.inj form
      dsimp only
      omega
    · obtain rfl := Form.finite.inj form
      dsimp only
      omega

/-- A float that is finite and not zero is a sign, a positive mantissa and an exponent. -/
theorem exists_unpack_finite {x : Float} (finite : x.isFinite = true) (nonzero : (x == 0.0) = false) :
    ∃ sign mantissa exponent positive, x.toModel.unpack = .finite sign mantissa exponent positive := by
  have meaning : x.toModel.unpack.isFinite = true := finite
  have comparison : x.toModel.unpack.beq (0.0 : Float).toModel.unpack = false := nonzero
  cases unpacked : x.toModel.unpack with
  | notANumber => rw [unpacked] at meaning; cases meaning
  | infinity sign => rw [unpacked] at meaning; cases meaning
  | zero sign =>
    rw [unpacked] at comparison
    exact absurd comparison (by cases sign <;> decide)
  | finite sign mantissa exponent positive => exact ⟨sign, mantissa, exponent, positive, rfl⟩

/-- The bits of a float that is finite and not zero give its sign and its exact size. -/
theorem exists_decode_finite {x : Float} (finite : x.isFinite = true) (nonzero : (x == 0.0) = false) :
    ∃ b : Binary, decode x = .finite b ∧ 0 < b.mantissa ∧ |exactValue x| = b.mantissa * 2 ^ b.exponent ∧
      (exactValue x < 0 ↔ b.negative = true) := by
  obtain ⟨sign, mantissa, exponent, positive, unpacked⟩ := exists_unpack_finite finite nonzero
  have form : decode x = .finite ⟨isNegative sign, mantissa, exponent⟩ := by
    rw [decode_eq_formOf, unpacked]
    rfl
  have size : (0 : ℚ) < mantissa * 2 ^ exponent :=
    mul_pos (by exact_mod_cast positive) (zpow_pos (by norm_num) exponent)
  refine ⟨_, form, positive, ?_⟩
  cases sign with
  | negative =>
    have value : exactValue x = -(mantissa * 2 ^ exponent) := by rw [exactValue, unpacked]
    rw [value, abs_neg, abs_of_pos size]
    exact ⟨rfl, iff_of_true (neg_lt_zero.mpr size) rfl⟩
  | positive =>
    have value : exactValue x = mantissa * 2 ^ exponent := by rw [exactValue, unpacked]
    rw [value, abs_of_pos size]
    exact ⟨rfl, iff_of_false size.not_gt Bool.false_ne_true⟩

end TreeCalc.Number
