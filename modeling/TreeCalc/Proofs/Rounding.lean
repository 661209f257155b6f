import Mathlib.Algebra.Order.Field.Power
import Mathlib.Algebra.Order.Ring.Abs
import Mathlib.Data.Rat.Cast.Order
import Mathlib.Tactic.FieldSimp
import Mathlib.Tactic.Linarith
import Mathlib.Tactic.Positivity
import Mathlib.Tactic.Ring
import TreeCalc.Number.Decimal

namespace TreeCalc.Number

namespace Fraction

/-- The fraction as a rational number. -/
def value (x : Fraction) : ℚ := x.num / x.den

theorem value_scale (x : Fraction) {base : ℕ} (positive : 0 < base) (k : ℤ) :
    (x.scale base k).value = x.value * (base : ℚ) ^ k := by
  cases k with
  | ofNat k =>
    simp only [scale, value, Nat.pow_eq, Nat.cast_mul, Nat.cast_pow, Int.ofNat_eq_natCast, zpow_natCast]
    ring
  | negSucc k =>
    have nonzero : (base : ℚ) ≠ 0 := by exact_mod_cast positive.ne'
    simp only [scale, value, Nat.pow_eq, Nat.cast_mul, Nat.cast_pow, zpow_negSucc]
    field_simp

theorem den_scale_pos {x : Fraction} (positive : 0 < x.den) {base : ℕ} (large : 0 < base) (k : ℤ) :
    0 < (x.scale base k).den := by
  cases k with
  | ofNat k => exact positive
  | negSucc k => exact Nat.mul_pos positive (Nat.pow_pos large)

theorem num_scale_pos {x : Fraction} (positive : 0 < x.num) {base : ℕ} (large : 0 < base) (k : ℤ) :
    0 < (x.scale base k).num := by
  cases k with
  | ofNat k => exact Nat.mul_pos positive (Nat.pow_pos large)
  | negSucc k => exact positive

end Fraction

/-- No natural number is nearer to `q` than `n`, and `n` is even if another is as near. -/
structure NearestEven (q : ℚ) (n : ℕ) : Prop where
  near : |q - n| ≤ 1 / 2
  even : |q - n| = 1 / 2 → n % 2 = 0

theorem NearestEven.not_succ {q : ℚ} {n : ℕ} (nearest : NearestEven q n) : ¬ NearestEven q (n + 1) := by
  intro next
  have below := abs_le.mp nearest.near
  have above := abs_le.mp next.near
  have step : ((n + 1 : ℕ) : ℚ) = n + 1 := Nat.cast_succ n
  have halfway : q - n = 1 / 2 := by linarith
  have even := nearest.even (by rw [halfway, abs_of_nonneg (by norm_num)])
  have nextEven :=
    next.even (by rw [show q - (n + 1 : ℕ) = -(1 / 2) by linarith, abs_neg, abs_of_nonneg (by norm_num)])
  omega

theorem NearestEven.unique {q : ℚ} {m n : ℕ} (first : NearestEven q m) (second : NearestEven q n) : m = n := by
  have one := abs_le.mp first.near
  have two := abs_le.mp second.near
  have below : m ≤ n + 1 := by
    have : (m : ℚ) ≤ (n + 1 : ℕ) := by push_cast; linarith
    exact_mod_cast this
  have above : n ≤ m + 1 := by
    have : (n : ℚ) ≤ (m + 1 : ℕ) := by push_cast; linarith
    exact_mod_cast this
  have notAbove : n ≠ m + 1 := fun next => first.not_succ (next ▸ second)
  have notBelow : m ≠ n + 1 := fun next => second.not_succ (next ▸ first)
  omega

theorem nearestEven_of_lt {n : ℕ} {part : ℚ} (nonnegative : 0 ≤ part) (small : part < 1 / 2) :
    NearestEven (n + part) n := by
  have distance : |(n : ℚ) + part - n| = part := by rw [add_sub_cancel_left, abs_of_nonneg nonnegative]
  exact ⟨distance.trans_le small.le, fun tie => by linarith⟩

theorem nearestEven_of_gt {n : ℕ} {part : ℚ} (large : 1 / 2 < part) (less : part ≤ 1) :
    NearestEven (n + part) (n + 1) := by
  have distance : |(n : ℚ) + part - (n + 1 : ℕ)| = 1 - part := by
    rw [Nat.cast_succ, abs_of_nonpos (by linarith)]
    ring
  refine ⟨?_, fun tie => ?_⟩
  · rw [distance]
    linarith
  · rw [distance] at tie
    linarith

theorem nearestEven_half (n : ℕ) : NearestEven (n + 1 / 2) (n + n % 2) := by
  have even : (n + n % 2) % 2 = 0 := by omega
  have parity : n % 2 = 0 ∨ n % 2 = 1 := by omega
  refine ⟨?_, fun _ => even⟩
  rcases parity with zero | one
  · rw [zero, Nat.add_zero, add_sub_cancel_left, abs_of_nonneg (by norm_num)]
  · rw [one, Nat.cast_succ, abs_of_nonpos (by linarith)]
    linarith

namespace Fraction

variable {x : Fraction}

theorem value_eq (positive : 0 < x.den) : x.value = x.floor + (x.num % x.den : ℕ) / x.den := by
  have whole : (x.den : ℚ) * x.floor + (x.num % x.den : ℕ) = x.num := by
    exact_mod_cast Nat.div_add_mod x.num x.den
  have nonzero : (x.den : ℚ) ≠ 0 := by exact_mod_cast positive.ne'
  rw [value, ← whole]
  field_simp

/-- Rounding a fraction gives the nearest natural number, and the even one of two. -/
theorem nearestEven_round (positive : 0 < x.den) : NearestEven x.value x.round := by
  have size : (0 : ℚ) < x.den := by exact_mod_cast positive
  have twice : (x.twiceRest : ℚ) = 2 * (x.num % x.den : ℕ) := by
    simp only [twiceRest, Nat.cast_mul, Nat.cast_ofNat]
  have nonnegative : (0 : ℚ) ≤ (x.num % x.den : ℕ) / x.den := by positivity
  have less : ((x.num % x.den : ℕ) : ℚ) / x.den < 1 := by
    rw [div_lt_one size]
    exact_mod_cast Nat.mod_lt _ positive
  rw [value_eq positive, round]
  rcases Nat.lt_trichotomy x.twiceRest x.den with small | half | large
  · rw [if_pos small]
    have small : (x.twiceRest : ℚ) < x.den := by exact_mod_cast small
    exact nearestEven_of_lt nonnegative (by rw [div_lt_iff₀ size]; linarith)
  · rw [if_neg (by omega), if_neg (by omega)]
    have half : (x.twiceRest : ℚ) = x.den := by exact_mod_cast half
    have part : ((x.num % x.den : ℕ) : ℚ) / x.den = 1 / 2 := by rw [div_eq_iff size.ne']; linarith
    rw [part]
    exact nearestEven_half x.floor
  · rw [if_neg (by omega), if_pos large]
    have large : (x.den : ℚ) < x.twiceRest := by exact_mod_cast large
    exact nearestEven_of_gt (by rw [lt_div_iff₀ size]; linarith) less.le

end Fraction

theorem digitCount_le_iff {n k : ℕ} : digitCount n ≤ k ↔ n < 10 ^ k := by
  induction k generalizing n with
  | zero =>
    unfold digitCount
    split <;> simp <;> omega
  | succ k ih =>
    unfold digitCount
    have shift : n < 10 ^ (k + 1) ↔ n / 10 < 10 ^ k := by
      rw [Nat.pow_succ, Nat.div_lt_iff_lt_mul (by decide)]
    split
    · rename_i zero
      rw [zero]
      simp
    · rw [shift, ← ih]
      omega

theorem exists_digitCount_eq {n : ℕ} (positive : 0 < n) :
    ∃ count, digitCount n = count + 1 ∧ 10 ^ count ≤ n ∧ n < 10 ^ (count + 1) := by
  have none := @digitCount_le_iff n 0
  obtain ⟨count, next⟩ := Nat.exists_eq_add_of_le' (show 1 ≤ digitCount n by omega)
  have fewer := @digitCount_le_iff n count
  exact ⟨count, next, by omega, digitCount_le_iff.mp next.le⟩

/-- A positive number lies between the power of ten of its decimal exponent and the next one. -/
theorem Fraction.decimalExponent_bounds {x : Fraction} (number : 0 < x.num) (positive : 0 < x.den) :
    (10 : ℚ) ^ x.decimalExponent ≤ x.value ∧ x.value < 10 ^ (x.decimalExponent + 1) := by
  have size : (0 : ℚ) < x.den := by exact_mod_cast positive
  unfold decimalExponent value
  rw [le_div_iff₀ size, div_lt_iff₀ size]
  by_cases atLeastOne : x.den ≤ x.num
  · obtain ⟨count, digits, lower, upper⟩ := exists_digitCount_eq (Nat.div_pos atLeastOne positive)
    have below : 10 ^ count * x.den ≤ x.num := (Nat.le_div_iff_mul_le positive).mp lower
    have above : x.num < 10 ^ (count + 1) * x.den := (Nat.div_lt_iff_lt_mul positive).mp upper
    have exponent : (digitCount x.floor : ℤ) - 1 = count := by rw [floor, digits]; omega
    rw [if_pos atLeastOne, exponent]
    exact ⟨by exact_mod_cast below, by exact_mod_cast above⟩
  · have fits : 0 < (x.den - 1) / x.num := Nat.div_pos (by omega) number
    obtain ⟨count, digits, lower, upper⟩ := exists_digitCount_eq fits
    have below : 10 ^ count * x.num < x.den := by
      have := (Nat.le_div_iff_mul_le number).mp lower
      omega
    have above : x.den ≤ 10 ^ (count + 1) * x.num := by
      have := (Nat.div_lt_iff_lt_mul number).mp upper
      omega
    have exponent : -((count + 1 : ℕ) : ℤ) + 1 = -(count : ℕ) := by omega
    rw [if_neg atLeastOne, digits, exponent, zpow_neg, zpow_neg, zpow_natCast, zpow_natCast,
      inv_mul_le_iff₀ (by positivity), lt_inv_mul_iff₀ (by positivity)]
    exact ⟨by exact_mod_cast above, by exact_mod_cast below⟩

theorem NearestEven.le {q : ℚ} {a n : ℕ} (nearest : NearestEven q n) (bound : a ≤ q) : a ≤ n := by
  have near := abs_le.mp nearest.near
  have less : (a : ℚ) < (n + 1 : ℕ) := by
    rw [Nat.cast_succ]
    linarith
  exact Nat.lt_succ_iff.mp (by exact_mod_cast less)

theorem NearestEven.ge {q : ℚ} {a n : ℕ} (nearest : NearestEven q n) (bound : q ≤ a) : n ≤ a := by
  have near := abs_le.mp nearest.near
  have less : (n : ℚ) < (a + 1 : ℕ) := by
    rw [Nat.cast_succ]
    linarith
  exact Nat.lt_succ_iff.mp (by exact_mod_cast less)

/-- The digits `m`, of which the leading one has the exponent `e`, are `q` rounded to one digit and `p` more:
`n` counts the units of the last of these digits that are nearest to `q`, and a carry, which would make one
digit too many of it, moves the exponent. -/
structure Rounds (p : ℕ) (q : ℚ) (m : ℕ) (e : ℤ) : Prop where
  lower : 10 ^ p ≤ m
  upper : m < 10 ^ (p + 1)
  rounded : ∃ (k : ℤ) (n : ℕ), (10 : ℚ) ^ k ≤ q ∧ q < 10 ^ (k + 1) ∧ NearestEven (q * 10 ^ (p - k)) n ∧
    (m : ℚ) * 10 ^ (e - p) = n * 10 ^ (k - p)

theorem mul_pow_eq_of_scaled {m n j : ℕ} {s : ℤ} (same : (m : ℚ) * 10 ^ (s + j) = n * 10 ^ s) : m * 10 ^ j = n := by
  rw [zpow_add₀ (by norm_num), zpow_natCast, mul_comm (10 ^ s : ℚ), ← mul_assoc] at same
  have cancelled := mul_right_cancel₀ (zpow_ne_zero s (by norm_num)) same
  exact_mod_cast cancelled

theorem pow_le_scaled {q : ℚ} {k : ℤ} (p : ℕ) (lower : 10 ^ k ≤ q) : ((10 ^ p : ℕ) : ℚ) ≤ q * 10 ^ (p - k) := by
  have scaled := mul_le_mul_of_nonneg_right lower (zpow_nonneg (show (0 : ℚ) ≤ 10 by norm_num) (p - k))
  rw [← zpow_add₀ (by norm_num), add_sub_cancel, zpow_natCast] at scaled
  exact_mod_cast scaled

theorem scaled_lt_pow {q : ℚ} {k : ℤ} (p : ℕ) (upper : q < 10 ^ (k + 1)) :
    q * 10 ^ (p - k) < ((10 ^ (p + 1) : ℕ) : ℚ) := by
  have scaled := mul_lt_mul_of_pos_right upper (zpow_pos (show (0 : ℚ) < 10 by norm_num) (p - k))
  rw [← zpow_add₀ (by norm_num), show k + 1 + (p - k) = ((p + 1 : ℕ) : ℤ) by push_cast; ring,
    zpow_natCast] at scaled
  exact_mod_cast scaled

namespace Rounds

variable {p m : ℕ} {q : ℚ} {e : ℤ}

/-- Either the digits are the nearest ones, or these were a power of ten that has one digit too many. -/
theorem kept_or_carried (rounds : Rounds p q m e) : ∃ k : ℤ, (10 : ℚ) ^ k ≤ q ∧ q < 10 ^ (k + 1) ∧
    (e = k ∧ NearestEven (q * 10 ^ (p - k)) m ∨
      e = k + 1 ∧ m = 10 ^ p ∧ NearestEven (q * 10 ^ (p - k)) (10 ^ (p + 1))) := by
  obtain ⟨k, n, lower, upper, nearest, same⟩ := rounds.rounded
  have atLeast : 10 ^ p ≤ n := nearest.le (pow_le_scaled p lower)
  have atMost : n ≤ 10 ^ (p + 1) := nearest.ge (scaled_lt_pow p upper).le
  have digits := rounds.lower
  have fewDigits := rounds.upper
  have tenth : 10 ^ (p + 1) = 10 ^ p * 10 := pow_succ 10 p
  refine ⟨k, lower, upper, ?_⟩
  rcases lt_trichotomy e k with less | equal | greater
  · obtain ⟨j, gap⟩ := Int.le.dest (Int.add_one_le_of_lt less)
    rw [show k - p = e - p + (j + 1 : ℕ) by push_cast; omega] at same
    -- A smaller exponent would need more digits.
    have scaled := mul_pow_eq_of_scaled same.symm
    have grown : n * 10 ≤ n * 10 ^ (j + 1) := Nat.mul_le_mul_left n (Nat.le_self_pow (by omega) 10)
    omega
  · rw [equal] at same
    have unchanged := mul_right_cancel₀ (zpow_ne_zero (k - p) (by norm_num)) same
    rw [show n = m by exact_mod_cast unchanged.symm] at nearest
    exact Or.inl ⟨equal, nearest⟩
  · obtain ⟨j, gap⟩ := Int.le.dest (Int.add_one_le_of_lt greater)
    rw [show e - p = k - p + (j + 1 : ℕ) by push_cast; omega] at same
    have scaled := mul_pow_eq_of_scaled same
    rw [pow_succ, ← Nat.mul_assoc] at scaled
    -- A larger one leaves room for a power of ten only, and only for the next exponent.
    have few : m * 10 ^ j ≤ m * 1 := by omega
    have positive : 0 < 10 ^ p := Nat.pow_pos (by decide)
    have single : 10 ^ j ≤ 1 := Nat.le_of_mul_le_mul_left few (by omega)
    have one : j = 0 := by
      by_contra more
      have large := Nat.le_self_pow more 10
      omega
    subst one
    have whole : n = 10 ^ (p + 1) := by omega
    rw [whole] at nearest
    exact Or.inr ⟨by omega, by omega, nearest⟩

/-- The digits are nearest to `q` in units of their own last one also after a carry. -/
theorem nearestEven (rounds : Rounds p q m e) : NearestEven (q * 10 ^ (p - e)) m := by
  obtain ⟨k, lower, upper, ⟨equal, nearest⟩ | ⟨next, power, nearest⟩⟩ := rounds.kept_or_carried
  · rw [equal]
    exact nearest
  · have tenth : q * 10 ^ (p - e) * 10 = q * 10 ^ (p - k) := by
      rw [mul_assoc, ← zpow_add_one₀ (by norm_num), next]
      congr 2
      ring
    have below := (abs_le.mp nearest.near).1
    have above := scaled_lt_pow p upper
    have digits : ((10 ^ (p + 1) : ℕ) : ℚ) = (m : ℚ) * 10 := by
      rw [power, pow_succ]
      push_cast
      ring
    -- In units that are ten times as large, half a unit below the power of ten is a twentieth.
    rw [digits] at below above
    have distance : |q * 10 ^ (p - e) - m| = m - q * 10 ^ (p - e) := by
      rw [abs_of_nonpos (by linarith)]
      ring
    refine ⟨?_, fun tie => ?_⟩
    · rw [distance]
      linarith
    · rw [distance] at tie
      linarith

theorem unique {m' : ℕ} {e' : ℤ} (first : Rounds p q m e) (second : Rounds p q m' e') : m = m' ∧ e = e' := by
  obtain ⟨k, lower, upper, state⟩ := first.kept_or_carried
  obtain ⟨k', lower', upper', state'⟩ := second.kept_or_carried
  have same : k = k' := by
    have one := (zpow_lt_zpow_iff_right₀ (by norm_num)).mp (lower.trans_lt upper')
    have two := (zpow_lt_zpow_iff_right₀ (by norm_num)).mp (lower'.trans_lt upper)
    omega
  subst same
  have few := first.upper
  have few' := second.upper
  rcases state with ⟨kept, nearest⟩ | ⟨next, power, nearest⟩ <;>
    rcases state' with ⟨kept', nearest'⟩ | ⟨next', power', nearest'⟩ <;>
    have agree := nearest.unique nearest' <;>
    omega

end Rounds

/-- Rounding a positive fraction to one digit and `p` more. -/
theorem Fraction.rounds_toDecimal {x : Fraction} (number : 0 < x.num) (positive : 0 < x.den) (p : ℕ) :
    Rounds p x.value (x.toDecimal (p + 1)).digits ((x.toDecimal (p + 1)).scale + p) := by
  obtain ⟨lower, upper⟩ := decimalExponent_bounds number positive
  have nearest := nearestEven_round (den_scale_pos positive (show 0 < 10 by decide) (-(x.decimalExponent - p)))
  rw [value_scale x (by decide), neg_sub] at nearest
  have atLeast := nearest.le (pow_le_scaled p lower)
  have atMost := nearest.ge (scaled_lt_pow p upper).le
  have tenth : 10 ^ (p + 1) = 10 ^ p * 10 := pow_succ 10 p
  have power : Nat.pow 10 (p + 1) = 10 ^ (p + 1) := rfl
  have unit : Nat.pow 10 p = 10 ^ p := rfl
  have some : 0 < 10 ^ p := Nat.pow_pos (by decide)
  simp only [toDecimal, Nat.add_sub_cancel, neg_sub]
  by_cases carry : (x.scale 10 (p - x.decimalExponent)).round = Nat.pow 10 (p + 1)
  · rw [if_pos carry]
    refine ⟨unit.ge, by dsimp only; omega, x.decimalExponent, _, lower, upper, nearest, ?_⟩
    rw [carry, power, tenth, add_sub_cancel_right, zpow_add_one₀ (by norm_num), unit]
    push_cast
    ring
  · rw [if_neg carry]
    refine ⟨atLeast, by dsimp only; omega, x.decimalExponent, _, lower, upper, nearest, ?_⟩
    rw [add_sub_cancel_right]

end TreeCalc.Number
