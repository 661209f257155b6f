import TreeCalc.Proofs.NearestBinary

namespace TreeCalc.Number

/-! The text of a number is read back: first the digits with a point and an exponent, then the float nearest to
them. -/

theorem length_toDigits_eq {n : ℕ} (positive : 0 < n) : (Nat.toDigits 10 n).length = digitCount n := by
  obtain ⟨count, digits, lower, upper⟩ := exists_digitCount_eq positive
  have atMost := (Nat.length_toDigits_le_iff (show 1 < 10 by decide) (Nat.succ_pos count)).mpr upper
  have size : 0 < (Nat.toDigits 10 n).length := Nat.length_toDigits_pos
  rw [digits]
  by_contra fewer
  have few : n < 10 ^ count := (Nat.length_toDigits_le_iff (by decide) (by omega)).mp (by omega)
  omega

theorem allDigits_trimZeros {digits : List Char} (all : AllDigits digits) : AllDigits (trimZeros digits) :=
  fun c member => all c (mem_of_mem_trimZeros member)

/-- The value of digits of which the leading one has the exponent `e`. -/
def leadValue (digits : List Char) (e : ℤ) : ℚ := digitsValue digits * 10 ^ (e - (digits.length - 1))

/-- Zeros at the end of the digits do not change the value. -/
theorem leadValue_append_zeros (digits : List Char) (count : ℕ) (e : ℤ) :
    leadValue (digits ++ List.replicate count '0') e = leadValue digits e := by
  have shifted : (10 : ℚ) ^ count * 10 ^ (e - ((digits ++ List.replicate count '0').length - 1)) =
      10 ^ (e - (digits.length - 1)) := by
    rw [← zpow_natCast, ← zpow_add₀ (by norm_num), List.length_append, List.length_replicate]
    congr 1
    push_cast
    ring
  rw [leadValue, leadValue, digitsValue_append, digitsValue_zeros, List.length_replicate, Nat.add_zero,
    Nat.cast_mul, Nat.cast_pow, Nat.cast_ofNat, mul_assoc, shifted]

theorem leadValue_text {d : Decimal} (positive : 0 < d.digits) :
    leadValue (trimZeros d.text) d.exponent = d.value := by
  obtain ⟨⟨count, zeros⟩, -⟩ := exists_trimZeros d.text
  rw [← leadValue_append_zeros _ count, ← zeros, leadValue, Decimal.text, digitsValue_toDigits,
    length_toDigits_eq positive, Decimal.value, Decimal.exponent]
  congr 2
  ring

theorem trimZeros_text_ne_nil {d : Decimal} (positive : 0 < d.digits) : trimZeros d.text ≠ [] := by
  intro nothing
  obtain ⟨⟨count, zeros⟩, -⟩ := exists_trimZeros d.text
  have value := digitsValue_toDigits d.digits
  rw [nothing, List.nil_append, Decimal.text] at zeros
  rw [zeros, digitsValue_zeros] at value
  omega

/-- Digits in front of a point and behind it, with the value that they have together. -/
structure Pointed (whole fraction : List Char) (value : ℚ) : Prop where
  wholeDigits : AllDigits whole
  fractionDigits : AllDigits fraction
  nonempty : whole ≠ []
  value : (digitsValue (whole ++ fraction) : ℚ) * 10 ^ (-(fraction.length : ℤ)) = value

theorem pointed_splitAtPoint {digits : List Char} (all : AllDigits digits) (nonempty : digits ≠ []) (e : ℤ) :
    Pointed (splitAtPoint digits e).1 (splitAtPoint digits e).2 (leadValue digits e) := by
  have some : 0 < digits.length := List.length_pos_of_ne_nil nonempty
  cases e with
  | ofNat e =>
    refine ⟨?_, fun c member => all c (List.mem_of_mem_drop member), ?_, ?_⟩
    · exact AllDigits.append (fun c member => all c (List.mem_of_mem_take member)) (allDigits_zeros _)
    · simp only [splitAtPoint, ne_eq, List.append_eq_nil_iff, List.take_eq_nil_iff, nonempty, or_false]
      omega
    · simp only [splitAtPoint]
      by_cases fits : e + 1 ≤ digits.length
      · rw [Nat.sub_eq_zero_of_le fits, List.replicate_zero, List.append_nil, List.take_append_drop,
          List.length_drop, leadValue]
        congr 2
        simp only [Int.ofNat_eq_natCast]
        omega
      · have short : digits.length ≤ e + 1 := by omega
        rw [List.take_of_length_le short, List.drop_of_length_le short, List.append_nil,
          ← leadValue_append_zeros digits (e + 1 - digits.length), leadValue, List.length_append,
          List.length_replicate]
        congr 2
        simp only [List.length_nil, Int.ofNat_eq_natCast]
        omega
  | negSucc e =>
    refine ⟨allDigits_zeros 1, (allDigits_zeros e).append all, List.cons_ne_nil _ _, ?_⟩
    have zero : digitsValue ['0'] = 0 := rfl
    simp only [splitAtPoint, digitsValue_append, digitsValue_zeros, zero, List.length_append, List.length_replicate,
      Nat.zero_mul, Nat.zero_add, leadValue]
    congr 2
    omega

namespace Pointed

variable {whole fraction rest : List Char} {value : ℚ} {exponent : ℤ}

/-- A zero behind the point does not change the value. -/
theorem fill (digits : Pointed whole fraction value) :
    Pointed whole (if fraction.isEmpty then ['0'] else fraction) value := by
  split
  · rename_i empty
    refine ⟨digits.wholeDigits, allDigits_zeros 1, digits.nonempty, ?_⟩
    have zero : digitsValue ['0'] = 0 := rfl
    rw [← digits.value, List.isEmpty_iff.mp empty, List.append_nil, digitsValue_append, zero]
    simp
  · exact digits

theorem exists_cons (digits : Pointed whole fraction value) (rest : List Char) :
    ∃ c more, pointed whole fraction ++ rest = c :: more ∧ c.isDigit = true := by
  obtain ⟨c, others, rfl⟩ := List.exists_cons_of_ne_nil digits.nonempty
  refine ⟨c, (pointed (c :: others) fraction ++ rest).tail, ?_, digits.wholeDigits c List.mem_cons_self⟩
  unfold pointed
  split <;> rfl

theorem read (digits : Pointed whole fraction value) (read : readExponent rest = some exponent) :
    (readDecimal (pointed whole fraction ++ rest)).map Decimal.value = some (value * 10 ^ exponent) := by
  rw [readDecimal_pointed digits.wholeDigits digits.fractionDigits digits.nonempty read, Option.map_some,
    Decimal.value, ← digits.value, mul_assoc, ← zpow_add₀ (by norm_num)]
  congr 3
  ring

end Pointed

theorem toList_toString_int (e : ℤ) : (toString e).toList = integerText e := by
  rw [Int.toString_eq_repr, Int.repr_eq_if, integerText]
  by_cases negative : e < 0
  · have size : (-e).toNat = e.natAbs := by omega
    rw [if_neg (by omega), decide_eq_true negative, String.toList_append, Nat.toList_repr, size]
    rfl
  · have size : e.toNat = e.natAbs := by omega
    rw [if_pos (by omega), decide_eq_false negative, Nat.toList_repr, size]
    rfl

theorem readExponent_integerText (e : ℤ) : readExponent ('e' :: integerText e) = some e := by
  have all := allDigits_toDigits e.natAbs
  have nonempty : Nat.toDigits 10 e.natAbs ≠ [] := Nat.toDigits_ne_nil
  rw [readExponent, if_pos (by decide), integerText]
  simp only [readSign_signed _ all.unsigned, readDigits_eq all]
  rw [if_neg (by simp [nonempty]), digitsValue_toDigits, ite_natAbs_eq]

theorem leadValue_mul (digits : List Char) (e : ℤ) : leadValue digits 0 * 10 ^ e = leadValue digits e := by
  rw [leadValue, leadValue, mul_assoc, ← zpow_add₀ (by norm_num)]
  congr 2
  ring

/-- In either notation there are digits with a point, and after them nothing or an exponent. -/
theorem exists_plainDigits {digits : List Char} (all : AllDigits digits) (nonempty : digits ≠ []) (e : ℤ) :
    ∃ whole fraction rest value exponent, plainDigits digits e = pointed whole fraction ++ rest ∧
      Pointed whole fraction value ∧ readExponent rest = some exponent ∧
      value * 10 ^ exponent = leadValue digits e := by
  unfold plainDigits
  split
  · have halves := (pointed_splitAtPoint all nonempty e).fill
    refine ⟨_, _, [], _, 0, ?_, halves, rfl, by rw [zpow_zero, mul_one]⟩
    have filled : (if (splitAtPoint digits e).2.isEmpty then ['0'] else (splitAtPoint digits e).2).isEmpty =
        false := by
      split
      · rfl
      · rename_i full
        exact Bool.eq_false_iff.mpr full
    rw [List.append_nil, pointed, filled]
    rfl
  · -- The point stands behind the leading digit, as in a number of exponent zero.
    have halves := pointed_splitAtPoint all nonempty 0
    have lead : splitAtPoint digits 0 = (digits.take 1, digits.drop 1) := by
      obtain ⟨first, others, rfl⟩ := List.exists_cons_of_ne_nil nonempty
      simp [splitAtPoint]
    rw [lead] at halves
    refine ⟨_, _, _, _, e, ?_, halves, readExponent_integerText e, leadValue_mul digits e⟩
    rw [toList_toString_int]

/-- What the text of a number stands for. -/
def readForm (text : List Char) : Option Form :=
  let (negative, size) := readSign text
  if size == ['N', 'a', 'N'] then some .nan
  else if size == ['i', 'n', 'f'] then some (.infinite negative)
  else (readDecimal size).map fun d =>
    .finite (if d.digits = 0 then ⟨negative, 0, -1074⟩ else d.magnitude.toBinary negative)

/-- A text that starts with a digit and is read as a decimal that is not zero stands for the binary number nearest
to that decimal. -/
theorem readForm_signed (negative : Bool) {c : Char} {rest : List Char} (digit : c.isDigit = true) {d : Decimal}
    (read : (readDecimal (c :: rest)).map Decimal.value = some d.value) (positive : 0 < d.digits) :
    readForm (signed negative (c :: rest)) = some (.finite (d.magnitude.toBinary negative)) := by
  obtain ⟨found, decimal, same⟩ := Option.map_eq_some_iff.mp read
  have nonzero : 0 < found.digits := by
    have size : 0 < d.value := mul_pos (by exact_mod_cast positive) (zpow_pos (by norm_num) _)
    refine Nat.pos_of_ne_zero fun zero => size.ne ?_
    rw [← same, Decimal.value, zero, Nat.cast_zero, zero_mul]
  have nearest : found.magnitude.toBinary negative = d.magnitude.toBinary negative :=
    Fraction.toBinary_congr (Decimal.num_magnitude_pos nonzero) found.den_magnitude_pos
      (Decimal.num_magnitude_pos positive) d.den_magnitude_pos
      (by rw [Decimal.value_magnitude, Decimal.value_magnitude, same]) negative
  have word : ∀ {mark : Char} {letters : List Char}, mark.isDigit = false →
      (c :: rest == mark :: letters) = false := by
    intro mark letters plain
    refine beq_false_of_ne fun equal => ?_
    rw [(List.cons.inj equal).1, plain] at digit
    cases digit
  unfold readForm
  rw [readSign_signed negative (readDecimal_eq_some_iff.mp decimal).unsigned]
  dsimp only
  rw [word (show 'N'.isDigit = false by decide), word (show 'i'.isDigit = false by decide), decimal,
    Option.map_some, if_neg nonzero.ne', nearest]
  rfl

theorem readForm_exactText (x : Float) : readForm (exactText x).toList = some (decode x) := by
  unfold exactText
  cases form : decode x with
  | nan => rfl
  | infinite negative => cases negative <;> rfl
  | finite b =>
    have normal := normal_of_decode form
    dsimp only
    rw [String.toList_ofList]
    change readForm (signed b.negative _) = _
    split
    · rename_i zero
      obtain ⟨negative, mantissa, exponent⟩ := b
      obtain rfl : mantissa = 0 := zero
      obtain rfl : exponent = -1074 := normal.full.resolve_left fun full => absurd full (by decide : ¬ 2 ^ 52 ≤ 0)
      cases negative <;> rfl
    · rename_i nonzero
      obtain ⟨nearest, positive⟩ := Binary.toBinary_shortest normal (Nat.pos_of_ne_zero nonzero)
      have all : AllDigits (trimZeros b.shortest.text) := allDigits_trimZeros (allDigits_toDigits _)
      obtain ⟨whole, fraction, mark, value, exponent, written, digits, marked, same⟩ :=
        exists_plainDigits all (trimZeros_text_ne_nil positive) b.shortest.exponent
      obtain ⟨c, rest, starts, digit⟩ := digits.exists_cons mark
      have read := digits.read marked
      rw [same, leadValue_text positive, starts] at read
      rw [written, starts, readForm_signed b.negative digit read positive, nearest]

theorem decode_eq_nan_iff (x : Float) : decode x = .nan ↔ x.isNaN = true := by
  have meaning : x.isNaN = x.toModel.unpack.isNaN := rfl
  rw [meaning, decode_eq_formOf]
  cases x.toModel.unpack with
  | notANumber => exact ⟨fun _ => rfl, fun _ => rfl⟩
  | infinity | zero | finite => constructor <;> intro impossible <;> cases impossible

/-- The bits that stand for a number: the sign, the biased exponent and the fraction. -/
def Form.bits : Form → ℕ
  | .nan => 0
  | .infinite negative => (if negative then 2 ^ 63 else 0) + 2047 * 2 ^ 52
  | .finite b =>
    (if b.negative then 2 ^ 63 else 0) +
      if b.mantissa < 2 ^ 52 then b.mantissa else (b.exponent + 1074).toNat * 2 ^ 52 + b.mantissa

theorem bits_decode {x : Float} (number : decode x ≠ .nan) : (decode x).bits = x.toBits.toNat := by
  have size : x.toBits.toNat < 2 ^ 64 := x.toBits.toNat_lt
  have powers : Nat.pow 2 52 = 2 ^ 52 ∧ Nat.pow 2 11 = 2 ^ 11 ∧ Nat.pow 2 63 = 2 ^ 63 := ⟨rfl, rfl, rfl⟩
  revert number
  simp only [decode, powers]
  generalize x.toBits.toNat = bits at size ⊢
  have sign : (if decide (2 ^ 63 ≤ bits) = true then 2 ^ 63 else 0) = bits / 2 ^ 63 * 2 ^ 63 := by
    split <;> simp only [decide_eq_true_eq] at * <;> omega
  split
  · split
    · intro _
      simp only [Form.bits, sign]
      omega
    · exact fun number => absurd rfl number
  · split
    · intro _
      simp only [Form.bits, sign, if_pos (Nat.mod_lt bits (show 2 ^ 52 > 0 by decide))]
      omega
    · intro _
      simp only [Form.bits, sign]
      rw [if_neg (Nat.not_lt.mpr (Nat.le_add_right _ _))]
      omega

/-- The bits of a number are the only ones that stand for it. -/
theorem eq_of_decode_eq {x y : Float} (same : decode x = decode y) (number : decode x ≠ .nan) : x = y := by
  have bits : x.toBits = y.toBits := by
    apply UInt64.toNat_inj.mp
    rw [← bits_decode number, ← bits_decode (same ▸ number), same]
  obtain ⟨⟨a, _⟩⟩ := x
  obtain ⟨⟨b, _⟩⟩ := y
  obtain rfl : a = b := bits
  rfl

/-- Equal as numbers with a sign, or both not a number. -/
def SameNumber (x y : Float) : Prop := x = y ∨ (x.isNaN = true ∧ y.isNaN = true)

theorem exactText_eq_iff (x y : Float) : exactText x = exactText y ↔ SameNumber x y := by
  constructor
  · intro texts
    have forms : decode x = decode y := by
      apply Option.some.inj
      rw [← readForm_exactText, texts, readForm_exactText]
    by_cases nan : decode x = .nan
    · exact Or.inr ⟨(decode_eq_nan_iff x).mp nan, (decode_eq_nan_iff y).mp (forms ▸ nan)⟩
    · exact Or.inl (eq_of_decode_eq forms nan)
  · rintro (rfl | ⟨one, two⟩)
    · rfl
    · rw [exactText, (decode_eq_nan_iff x).mpr one, exactText, (decode_eq_nan_iff y).mpr two]

theorem isNumeral_of_mem_signed (negative : Bool) {text : List Char} (plain : ∀ c ∈ text, isNumeral c = true) :
    ∀ c ∈ signed negative text, isNumeral c = true := by
  cases negative with
  | false => exact plain
  | true => exact List.forall_mem_cons.mpr ⟨by decide, plain⟩

theorem isNumeral_of_mem_plainDigits {digits : List Char} {e : ℤ} (plain : ∀ c ∈ digits, isNumeral c = true) :
    ∀ c ∈ plainDigits digits e, isNumeral c = true := by
  intro c member
  have zero : isNumeral '0' = true := by decide
  have halves : c ∈ (splitAtPoint digits e).1 ∨ c ∈ (splitAtPoint digits e).2 → isNumeral c = true := fun half =>
    (mem_of_mem_splitAtPoint half).elim (plain c) (fun same => same ▸ zero)
  unfold plainDigits at member
  split at member
  · dsimp only at member
    rcases List.mem_append.mp member with whole | rest
    · exact halves (Or.inl whole)
    · rcases List.mem_cons.mp rest with rfl | fraction
      · decide
      · by_cases empty : (splitAtPoint digits e).2.isEmpty
        · rw [if_pos empty] at fraction
          exact List.mem_singleton.mp fraction ▸ zero
        · rw [if_neg empty] at fraction
          exact halves (Or.inr fraction)
  · rcases List.mem_append.mp member with mantissa | exponent
    · rcases mem_of_mem_pointed mantissa with whole | rfl | fraction
      · exact plain c (List.mem_of_mem_take whole)
      · decide
      · exact plain c (List.mem_of_mem_drop fraction)
    · rcases List.mem_cons.mp exponent with rfl | rest
      · decide
      · rw [toList_toString_int, integerText] at rest
        exact isNumeral_of_mem_signed _ (fun d digit => isNumeral_of_mem_toDigits digit) c rest

/-- A bracket ends the text of a number. -/
theorem bracket_notMem_exactText (x : Float) : ')' ∉ (exactText x).toList := by
  have plain : ∀ {text : List Char}, (∀ c ∈ text, isNumeral c = true) → ')' ∉ text :=
    fun plain member => absurd (plain _ member) (by decide)
  unfold exactText
  cases decode x with
  | nan => decide
  | infinite negative => cases negative <;> decide
  | finite b =>
    dsimp only
    rw [String.toList_ofList]
    refine plain (isNumeral_of_mem_signed b.negative ?_)
    split
    · exact List.all_eq_true.mp (by decide)
    · exact isNumeral_of_mem_plainDigits fun c member => isNumeral_of_mem_toDigits (mem_of_mem_trimZeros member)

end TreeCalc.Number
