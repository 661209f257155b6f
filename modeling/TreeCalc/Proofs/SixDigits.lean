import TreeCalc.Proofs.FloatValue
import TreeCalc.Proofs.RoundedTwice

namespace TreeCalc.Number

theorem Rounds.length_toDigits {p m : ℕ} {q : ℚ} {e : ℤ} (rounds : Rounds p q m e) :
    (Nat.toDigits 10 m).length = p + 1 := by
  have atMost := (Nat.length_toDigits_le_iff (show 1 < 10 by decide) (Nat.succ_pos p)).mpr rounds.upper
  have size : 0 < (Nat.toDigits 10 m).length := Nat.length_toDigits_pos
  have lower := rounds.lower
  by_contra fewer
  have few : m < 10 ^ p := (Nat.length_toDigits_le_iff (by decide) (by omega)).mp (by omega)
  omega

theorem Rounds.digitCount_eq {p m : ℕ} {q : ℚ} {e : ℤ} (rounds : Rounds p q m e) : digitCount m = p + 1 := by
  have atMost := digitCount_le_iff.mpr rounds.upper
  have fewer := @digitCount_le_iff m p
  have lower := rounds.lower
  omega

theorem Rounds.head?_toDigits {p m : ℕ} {q : ℚ} {e : ℤ} (rounds : Rounds p q m e) :
    (Nat.toDigits 10 m).head? ≠ some '0' :=
  head?_toDigits_ne (Nat.lt_of_lt_of_le (Nat.pow_pos (by decide)) rounds.lower)

theorem Binary.den_magnitude_pos (b : Binary) : 0 < b.magnitude.den :=
  Fraction.den_scale_pos Nat.one_pos (by decide) _

/-- The digits and the exponent that are displayed are six digits of the number. -/
theorem Binary.rounds_displayed {b : Binary} (positive : 0 < b.mantissa) :
    Rounds 5 b.magnitude.value (b.magnitude.toDecimal displayPlaces).digits
      (b.magnitude.toDecimal displayPlaces).exponent := by
  have number : 0 < b.magnitude.num := Fraction.num_scale_pos positive (by decide) _
  have rounds := Fraction.rounds_toDecimal number b.den_magnitude_pos 5
  have exponent : (b.magnitude.toDecimal displayPlaces).exponent =
      (b.magnitude.toDecimal (5 + 1)).scale + (5 : ℕ) := by
    rw [Decimal.exponent, displayPlaces, rounds.digitCount_eq]
    push_cast
    ring
  rw [exponent]
  exact rounds

theorem Binary.value_magnitude (b : Binary) : b.magnitude.value = b.mantissa * 2 ^ b.exponent := by
  have whole : (Fraction.ofNat b.mantissa).value = b.mantissa := by
    rw [Fraction.value, Fraction.ofNat, Nat.cast_one, div_one]
  rw [magnitude, Fraction.value_scale _ (by decide), whole, Nat.cast_ofNat]

theorem zpow_ten_le_two (n : ℕ) : (10 : ℚ) ^ (-(n : ℤ)) ≤ 2 ^ (-(n : ℤ)) := by
  rw [zpow_neg, zpow_neg, zpow_natCast, zpow_natCast]
  exact inv_anti₀ (by positivity) (pow_le_pow_left₀ (by norm_num) (by norm_num) n)

/-- The decimal exponent of a float has four digits at most. -/
theorem Rounds.exponent_bounds {b : Binary} {p m : ℕ} {e : ℤ} (rounds : Rounds p b.magnitude.value m e)
    (positive : 0 < b.mantissa) (size : b.mantissa < 2 ^ 53) (least : -1074 ≤ b.exponent)
    (most : b.exponent ≤ 971) :
    -1074 ≤ e ∧ e ≤ 1024 := by
  obtain ⟨k, lower, upper, state⟩ := rounds.kept_or_carried
  have next : e = k ∨ e = k + 1 := state.imp And.left And.left
  rw [b.value_magnitude] at lower upper
  have small : (10 : ℚ) ^ (-(1074 : ℕ) : ℤ) < 10 ^ (k + 1) := by
    calc (10 : ℚ) ^ (-(1074 : ℕ) : ℤ) ≤ 2 ^ (-(1074 : ℕ) : ℤ) := zpow_ten_le_two 1074
      _ ≤ 1 * 2 ^ b.exponent := by
        rw [one_mul]
        exact zpow_le_zpow_right₀ (by norm_num) least
      _ ≤ b.mantissa * 2 ^ b.exponent := by
        gcongr
        exact_mod_cast positive
      _ < 10 ^ (k + 1) := upper
  have large : (10 : ℚ) ^ k < 10 ^ (53 + 971 : ℤ) := by
    have few : (b.mantissa : ℚ) < 2 ^ (53 : ℤ) := by exact_mod_cast size
    calc (10 : ℚ) ^ k ≤ b.mantissa * 2 ^ b.exponent := lower
      _ < 2 ^ (53 : ℤ) * 2 ^ b.exponent := mul_lt_mul_of_pos_right few (zpow_pos (by norm_num) _)
      _ ≤ 2 ^ (53 : ℤ) * 2 ^ (971 : ℤ) := by
        gcongr
        norm_num
      _ = 2 ^ (53 + 971 : ℤ) := (zpow_add₀ (by norm_num) _ _).symm
      _ ≤ 10 ^ (53 + 971 : ℤ) := zpow_le_zpow_left₀ (by norm_num) (by norm_num) (by norm_num)
  have above := (zpow_lt_zpow_iff_right₀ (by norm_num)).mp small
  have below := (zpow_lt_zpow_iff_right₀ (by norm_num)).mp large
  omega

/-- Rounding twice comes out as rounding once. -/
theorem roundedTwice_eq {x : Float} {b : Binary} (form : decode x = .finite b) (positive : 0 < b.mantissa) :
    roundedTwice x = some (signed b.negative (generalMagnitude b.magnitude)) := by
  have rounds := b.rounds_displayed positive
  obtain ⟨size, least, most⟩ := bounds_of_decode form
  obtain ⟨lower, upper⟩ := rounds.exponent_bounds positive size least most
  have six := rounds.length_toDigits
  have all := allDigits_toDigits (b.magnitude.toDecimal displayPlaces).digits
  have lead := rounds.head?_toDigits
  have written : generalMagnitude b.magnitude =
      generalDigits (Nat.toDigits 10 (b.magnitude.toDecimal displayPlaces).digits)
        (b.magnitude.toDecimal displayPlaces).exponent := rfl
  have scientific : scientificText 5 b.magnitude =
      pointed ((Nat.toDigits 10 (b.magnitude.toDecimal displayPlaces).digits).take 1)
        ((Nat.toDigits 10 (b.magnitude.toDecimal displayPlaces).digits).drop 1) ++
      'e' :: integerText (b.magnitude.toDecimal displayPlaces).exponent := rfl
  unfold roundedTwice
  simp only [form, scientific, written]
  generalize (b.magnitude.toDecimal displayPlaces).digits = m at *
  generalize (b.magnitude.toDecimal displayPlaces).exponent = e at *
  obtain ⟨first, rest, digits⟩ := List.exists_cons_of_length_eq_add_one six
  have cut := cutAt_lead (digits ▸ all) (fun zero => lead (digits ▸ congrArg some zero))
  have front : (Nat.toDigits 10 m).take 1 = [first] := by rw [digits]; rfl
  have back : (Nat.toDigits 10 m).drop 1 = rest := by rw [digits]; rfl
  rw [front, back, splitAtMark_signed _ cut.wholeDigits.all cut.fractionDigits, Option.bind_eq_bind,
    Option.bind_some]
  -- The exponent of a float is far within thirty-two bits.
  simp only [readInteger_integerText (show -2147483648 ≤ e by omega) (show e ≤ 2147483647 by omega),
    Option.bind_eq_bind, Option.bind_some]
  by_cases fixed : -4 ≤ e ∧ e < 6
  · -- The second rounding gives the digits of the first one, carried or not.
    obtain ⟨places, left⟩ := Int.eq_ofNat_of_zero_le (show 0 ≤ 5 - e by omega)
    have halves := cutAt_splitAtPoint all lead (show e < (Nat.toDigits 10 m).length by omega)
    rw [if_pos fixed, Int.mem_toNat?.mpr left, Option.bind_some, fixedText_eq b.den_magnitude_pos rounds left six,
      trimFraction_signed _ halves.wholeDigits.all halves.fractionDigits, generalDigits_fixed fixed]
  · rw [if_neg fixed, trimFraction_signed _ cut.wholeDigits.all cut.fractionDigits, digits,
      generalDigits_scientific fixed, signed_append]

theorem toList_general {x : Float} {b : Binary} (form : decode x = .finite b) (positive : 0 < b.mantissa) :
    (general x).toList = signed b.negative (generalMagnitude b.magnitude) := by
  rw [general, form]
  simp only [if_neg positive.ne', String.toList_ofList]
  rfl

/-- What is displayed for a float: six digits `m` of its exact value and no others, of which the leading one has
the exponent `e`. The `text` behind the sign stands for just these digits, positionally if the exponent is
small; and rounding the float twice gives the same text. -/
structure SixDigits (x : Float) (m : ℕ) (e : ℤ) (text : List Char) : Prop where
  rounds : Rounds 5 |exactValue x| m e
  only : ∀ m' e', Rounds 5 |exactValue x| m' e' → m' = m ∧ e' = e
  shown : (general x).toList = if exactValue x < 0 then '-' :: text else text
  value : (readDecimal text).map Decimal.value = some ((m : ℚ) * 10 ^ (e - 5))
  positional : (∃ whole, Positional whole text) ↔ -4 ≤ e ∧ e < 6
  exponent : ¬ (-4 ≤ e ∧ e < 6) → WithExponent e text
  twice : roundedTwice x = some (general x).toList

/-- Every float that is finite and not zero is displayed with its six digits. -/
theorem general_shows_six_digits {x : Float} (finite : x.isFinite = true) (nonzero : (x == 0.0) = false) :
    ∃ m e text, SixDigits x m e text := by
  obtain ⟨b, form, positive, size, sign⟩ := exists_decode_finite finite nonzero
  have rounds := b.rounds_displayed positive
  have all := allDigits_toDigits (b.magnitude.toDecimal displayPlaces).digits
  have lead := rounds.head?_toDigits
  have six := rounds.length_toDigits
  have shown := toList_general form positive
  have read := read_generalDigits (b.magnitude.toDecimal displayPlaces).exponent all lead six
  rw [digitsValue_toDigits] at read
  rw [b.value_magnitude, ← size] at rounds
  refine ⟨_, _, generalMagnitude b.magnitude, rounds, ?_, ?_, read, ?_, ?_, ?_⟩
  · intro m' e' others
    exact others.unique rounds
  · rw [shown, signed]
    simp only [sign]
  · exact positional_generalDigits_iff _ all lead six
  · exact withExponent_generalDigits _ all lead six
  · rw [shown, roundedTwice_eq form positive]

/-- A carry at the end of the positional range: the nearest six digits would be seven. -/
theorem general_shows_six_digits_carried :
    (999999.5 : Float).isFinite = true ∧ ((999999.5 : Float) == 0.0) = false ∧ general 999999.5 = "1e+06" ∧
      ∃ m e text, SixDigits 999999.5 m e text :=
  have finite : (999999.5 : Float).isFinite = true := by decide +kernel
  have nonzero : ((999999.5 : Float) == 0.0) = false := by decide +kernel
  ⟨finite, nonzero, by decide +kernel, general_shows_six_digits finite nonzero⟩

end TreeCalc.Number
