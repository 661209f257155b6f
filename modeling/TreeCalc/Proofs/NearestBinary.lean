import TreeCalc.Number.Shortest
import TreeCalc.Proofs.SixDigits

namespace TreeCalc.Number

namespace Fraction

variable {x y : Fraction}

theorem round_congr (positive : 0 < x.den) (nonzero : 0 < y.den) (same : x.value = y.value) : x.round = y.round :=
  (nearestEven_round positive).unique (same ▸ nearestEven_round nonzero)

theorem floor_lt_iff (positive : 0 < x.den) (n : ℕ) : x.floor < n ↔ x.value < n := by
  rw [floor, Nat.div_lt_iff_lt_mul positive, value, div_lt_iff₀ (by exact_mod_cast positive)]
  exact_mod_cast Iff.rfl

theorem log2_bounds {n : ℕ} (positive : 0 < n) :
    (2 : ℚ) ^ (n.log2 : ℤ) ≤ n ∧ (n : ℚ) < 2 ^ ((n.log2 : ℤ) + 1) := by
  have lower : 2 ^ n.log2 ≤ n := Nat.log2_self_le positive.ne'
  have upper : n < 2 ^ (n.log2 + 1) := Nat.lt_log2_self
  exact ⟨by exact_mod_cast lower, by exact_mod_cast upper⟩

/-- The lengths of numerator and denominator tell the size of a fraction up to a factor of two on either side. -/
theorem value_bounds (number : 0 < x.num) (positive : 0 < x.den) :
    (2 : ℚ) ^ ((x.num.log2 : ℤ) - x.den.log2 - 1) < x.value ∧
      x.value < 2 ^ ((x.num.log2 : ℤ) - x.den.log2 + 1) := by
  obtain ⟨numLower, numUpper⟩ := log2_bounds number
  obtain ⟨denLower, denUpper⟩ := log2_bounds positive
  have size : (0 : ℚ) < x.den := by exact_mod_cast positive
  rw [value, lt_div_iff₀ size, div_lt_iff₀ size]
  constructor
  · calc (2 : ℚ) ^ ((x.num.log2 : ℤ) - x.den.log2 - 1) * x.den
        < 2 ^ ((x.num.log2 : ℤ) - x.den.log2 - 1) * 2 ^ ((x.den.log2 : ℤ) + 1) :=
          mul_lt_mul_of_pos_left denUpper (zpow_pos (by norm_num) _)
      _ = 2 ^ (x.num.log2 : ℤ) := by
          rw [← zpow_add₀ (by norm_num)]
          congr 1
          ring
      _ ≤ x.num := numLower
  · calc (x.num : ℚ) < 2 ^ ((x.num.log2 : ℤ) + 1) := numUpper
      _ = 2 ^ ((x.num.log2 : ℤ) - x.den.log2 + 1) * 2 ^ (x.den.log2 : ℤ) := by
          rw [← zpow_add₀ (by norm_num)]
          congr 1
          ring
      _ ≤ 2 ^ ((x.num.log2 : ℤ) - x.den.log2 + 1) * x.den :=
          mul_le_mul_of_nonneg_left denLower (zpow_nonneg (by norm_num) _)

/-- With its binary exponent, unless that is held at the least one, a number has a mantissa of fifty-three bits. -/
theorem exists_binaryExponent (number : 0 < x.num) (positive : 0 < x.den) :
    ∃ e : ℤ, (2 : ℚ) ^ (e + 52) ≤ x.value ∧ x.value < 2 ^ (e + 53) ∧ x.binaryExponent = max e (-1074) := by
  obtain ⟨lower, upper⟩ := value_bounds number positive
  obtain ⟨guess, lengths⟩ : ∃ guess : ℤ, (x.num.log2 : ℤ) - x.den.log2 - 52 = guess := ⟨_, rfl⟩
  have unit : ((Nat.pow 2 52 : ℕ) : ℚ) = 2 ^ (52 : ℤ) := by norm_num
  have short : (x.scale 2 (-guess)).floor < Nat.pow 2 52 ↔ x.value < 2 ^ (guess + 52) := by
    rw [floor_lt_iff (den_scale_pos positive (by decide) _), value_scale x (by decide), unit, zpow_neg,
      mul_inv_lt_iff₀ (zpow_pos (by norm_num) _), Nat.cast_ofNat, ← zpow_add₀ (by norm_num), add_comm]
  rw [show (x.num.log2 : ℤ) - x.den.log2 - 1 = guess - 1 + 52 by omega] at lower
  rw [show (x.num.log2 : ℤ) - x.den.log2 + 1 = guess + 53 by omega] at upper
  by_cases small : x.value < 2 ^ (guess + 52)
  · refine ⟨guess - 1, lower.le, ?_, ?_⟩
    · rwa [show guess - 1 + 53 = guess + 52 by ring]
    · simp only [binaryExponent, lengths, if_pos (short.mpr small)]
  · refine ⟨guess, not_lt.mp small, upper, ?_⟩
    simp only [binaryExponent, lengths, if_neg (mt short.mp small)]

theorem exponent_unique {q : ℚ} {d e : ℤ} (lower : (2 : ℚ) ^ (d + 52) ≤ q) (upper : q < 2 ^ (d + 53))
    (below : (2 : ℚ) ^ (e + 52) ≤ q) (above : q < 2 ^ (e + 53)) : d = e := by
  have one := (zpow_lt_zpow_iff_right₀ (by norm_num)).mp (lower.trans_lt above)
  have two := (zpow_lt_zpow_iff_right₀ (by norm_num)).mp (below.trans_lt upper)
  omega

/-- Which binary number is nearest depends on the value of a fraction only. -/
theorem toBinary_congr (number : 0 < x.num) (positive : 0 < x.den) (some : 0 < y.num) (nonzero : 0 < y.den)
    (same : x.value = y.value) (negative : Bool) : x.toBinary negative = y.toBinary negative := by
  obtain ⟨d, lower, upper, first⟩ := exists_binaryExponent number positive
  obtain ⟨e, below, above, second⟩ := exists_binaryExponent some nonzero
  rw [same] at lower upper
  obtain rfl := exponent_unique lower upper below above
  have exponents : x.binaryExponent = y.binaryExponent := first.trans second.symm
  have mantissas : (x.scale 2 (-y.binaryExponent)).round = (y.scale 2 (-y.binaryExponent)).round := by
    apply round_congr (den_scale_pos positive (by decide) _) (den_scale_pos nonzero (by decide) _)
    rw [value_scale x (by decide), value_scale y (by decide), same]
  simp only [toBinary, exponents, mantissas]

end Fraction

/-- A binary number in the form that floats have: fifty-three bits, or fewer with the least exponent. -/
structure Binary.Normal (b : Binary) : Prop where
  size : b.mantissa < 2 ^ 53
  least : -1074 ≤ b.exponent
  full : 2 ^ 52 ≤ b.mantissa ∨ b.exponent = -1074

theorem normal_of_decode {x : Float} {b : Binary} (form : decode x = .finite b) : b.Normal := by
  obtain ⟨size, least, _⟩ := bounds_of_decode form
  refine ⟨size, least, ?_⟩
  simp only [decode] at form
  split at form
  · split at form <;> cases form
  · split at form
    · obtain rfl := Form.finite.inj form
      exact Or.inr rfl
    · obtain rfl := Form.finite.inj form
      exact Or.inl (Nat.le_add_right _ _)

theorem Binary.binaryExponent_magnitude {b : Binary} (normal : b.Normal) (positive : 0 < b.mantissa) :
    b.magnitude.binaryExponent = b.exponent := by
  have number : 0 < b.magnitude.num := Fraction.num_scale_pos positive (by decide) _
  obtain ⟨e, lower, upper, exponent⟩ := Fraction.exists_binaryExponent number b.den_magnitude_pos
  rw [b.value_magnitude] at lower upper
  have unit : (0 : ℚ) < 2 ^ b.exponent := zpow_pos (by norm_num) _
  have atMost : e ≤ b.exponent := by
    have few : (b.mantissa : ℚ) < 2 ^ (53 : ℤ) := by exact_mod_cast normal.size
    have bound : (2 : ℚ) ^ (e + 52) < 2 ^ (53 + b.exponent) := by
      rw [zpow_add₀ (by norm_num) 53]
      exact lower.trans_lt (mul_lt_mul_of_pos_right few unit)
    have less := (zpow_lt_zpow_iff_right₀ (by norm_num)).mp bound
    omega
  rw [exponent]
  rcases normal.full with full | least
  · have many : (2 : ℚ) ^ (52 : ℤ) ≤ b.mantissa := by exact_mod_cast full
    have bound : (2 : ℚ) ^ (52 + b.exponent) < 2 ^ (e + 53) := by
      rw [zpow_add₀ (by norm_num) 52]
      exact (mul_le_mul_of_nonneg_right many unit.le).trans_lt upper
    have less := (zpow_lt_zpow_iff_right₀ (by norm_num)).mp bound
    have range := normal.least
    omega
  · -- A mantissa of fewer bits has a smaller exponent of its own, and is held at the least one.
    omega

theorem nearestEven_natCast (n : ℕ) : NearestEven (n : ℚ) n := by
  refine ⟨by rw [sub_self, abs_zero]; norm_num, fun tie => ?_⟩
  rw [sub_self, abs_zero] at tie
  norm_num at tie

/-- Nearest to a number that has this form is the number itself. -/
theorem Binary.toBinary_magnitude {b : Binary} (normal : b.Normal) (positive : 0 < b.mantissa) :
    b.magnitude.toBinary b.negative = b := by
  have whole : (b.magnitude.scale 2 (-b.exponent)).value = b.mantissa := by
    rw [Fraction.value_scale _ (by decide), b.value_magnitude, Nat.cast_ofNat, mul_assoc, ← zpow_add₀ (by norm_num),
      add_neg_cancel, zpow_zero, mul_one]
  have mantissa : (b.magnitude.scale 2 (-b.exponent)).round = b.mantissa := by
    have nearest := Fraction.nearestEven_round
      (Fraction.den_scale_pos b.den_magnitude_pos (show 0 < 2 by decide) (-b.exponent))
    rw [whole] at nearest
    exact nearest.unique (nearestEven_natCast b.mantissa)
  have kept : b.mantissa ≠ Nat.pow 2 53 := normal.size.ne
  simp only [Fraction.toBinary, binaryExponent_magnitude normal positive, mantissa, if_neg kept]

theorem Decimal.value_magnitude (d : Decimal) : d.magnitude.value = d.value := by
  have whole : (Fraction.ofNat d.digits).value = d.digits := by
    rw [Fraction.value, Fraction.ofNat, Nat.cast_one, div_one]
  rw [magnitude, Fraction.value_scale _ (by decide), whole, Decimal.value, Nat.cast_ofNat]

theorem Binary.value_exactDecimal (b : Binary) : b.exactDecimal.value = b.mantissa * 2 ^ b.exponent := by
  unfold exactDecimal Decimal.value
  cases b.exponent with
  | ofNat k =>
    dsimp only
    rw [zpow_zero, mul_one, Int.ofNat_eq_natCast, zpow_natCast]
    exact_mod_cast rfl
  | negSucc k =>
    have power : (10 : ℚ) ^ (k + 1) = 5 ^ (k + 1) * 2 ^ (k + 1) := by rw [← mul_pow]; norm_num
    have five : (5 : ℚ) ^ (k + 1) ≠ 0 := pow_ne_zero _ (by norm_num)
    dsimp only
    rw [zpow_negSucc, zpow_negSucc, power, mul_inv, Nat.cast_mul, Nat.pow_eq, Nat.cast_pow, Nat.cast_ofNat]
    field_simp

theorem Binary.digits_exactDecimal_pos {b : Binary} (positive : 0 < b.mantissa) : 0 < b.exactDecimal.digits := by
  unfold exactDecimal
  split <;> exact Nat.mul_pos positive (Nat.pow_pos (by decide))

/-- Zero is nearest to zero. -/
theorem Fraction.mantissa_toBinary_zero {x : Fraction} (zero : x.num = 0) (negative : Bool) :
    (x.toBinary negative).mantissa = 0 := by
  have scaled : (x.scale 2 (-x.binaryExponent)).num = 0 := by
    cases -x.binaryExponent with
    | ofNat k => simp [scale, zero]
    | negSucc k => exact zero
  have nothing : (x.scale 2 (-x.binaryExponent)).round = 0 := by
    simp [round, twiceRest, floor, scaled]
  rw [toBinary]
  simp only [nothing]
  rfl

/-- A decimal of so many digits is chosen only if it reads back. -/
theorem Binary.readsBack_of_shortestAt {b : Binary} {places : ℕ} {d : Decimal}
    (chosen : b.shortestAt places = some d) :
    d.readsBack b = true := by
  have either : ∀ nearer farther : Decimal,
      (if nearer.readsBack b then some nearer else if farther.readsBack b then some farther else none) = some d →
        d.readsBack b = true := by
    intro nearer farther found
    split at found
    · rename_i back
      exact Option.some.inj found ▸ back
    · split at found
      · rename_i back
        exact Option.some.inj found ▸ back
      · cases found
  exact either _ _ chosen

theorem Decimal.num_magnitude_pos {d : Decimal} (positive : 0 < d.digits) : 0 < d.magnitude.num :=
  Fraction.num_scale_pos positive (by decide) _

theorem Decimal.den_magnitude_pos (d : Decimal) : 0 < d.magnitude.den :=
  Fraction.den_scale_pos Nat.one_pos (by decide) _

/-- The decimal that is chosen for a float reads back as the float, and is not zero. -/
theorem Binary.toBinary_shortest {b : Binary} (normal : b.Normal) (positive : 0 < b.mantissa) :
    b.shortest.magnitude.toBinary b.negative = b ∧ 0 < b.shortest.digits := by
  have reads : b.shortest.magnitude.toBinary b.negative = b := by
    unfold shortest
    cases found : (List.range' 1 17).findSome? b.shortestAt with
    | some d =>
      obtain ⟨places, _, chosen⟩ := List.exists_of_findSome?_eq_some found
      exact eq_of_beq (readsBack_of_shortestAt chosen)
    | none =>
      have number := Decimal.num_magnitude_pos (digits_exactDecimal_pos positive)
      have some : 0 < b.magnitude.num := Fraction.num_scale_pos positive (by decide) _
      have same : b.exactDecimal.magnitude.value = b.magnitude.value := by
        rw [Decimal.value_magnitude, value_exactDecimal, value_magnitude]
      rw [Option.getD_none,
        Fraction.toBinary_congr number b.exactDecimal.den_magnitude_pos some b.den_magnitude_pos same]
      exact toBinary_magnitude normal positive
  refine ⟨reads, Nat.pos_of_ne_zero fun zero => ?_⟩
  have none : b.shortest.magnitude.num = 0 := by
    unfold Decimal.magnitude
    rw [zero]
    cases b.shortest.scale with
    | ofNat k => exact Nat.zero_mul _
    | negSucc k => rfl
  have nothing := Fraction.mantissa_toBinary_zero none b.negative
  rw [reads] at nothing
  omega

end TreeCalc.Number
