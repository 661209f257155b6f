import Mathlib.Algebra.Field.Rat
import Mathlib.Algebra.GroupWithZero.Basic
import Mathlib.Tactic.FieldSimp
import Mathlib.Tactic.NormNum
import TreeCalc.Number.General
import TreeCalc.Proofs.Literals
import TreeCalc.Proofs.Numerals

namespace TreeCalc.Number

theorem AllDigits.append {front back : List Char} (one : AllDigits front) (two : AllDigits back) :
    AllDigits (front ++ back) := by
  intro c member
  rcases List.mem_append.mp member with left | right
  · exact one c left
  · exact two c right

theorem allDigits_zeros (count : Nat) : AllDigits (List.replicate count '0') := by
  intro c member
  rw [List.eq_of_mem_replicate member]
  decide

theorem allDigits_toDigits (n : Nat) : AllDigits (Nat.toDigits 10 n) := fun _ member =>
  Nat.isDigit_of_mem_toDigits (by decide) (by decide) member

theorem digitsValue_append (front back : List Char) :
    digitsValue (front ++ back) = digitsValue front * 10 ^ back.length + digitsValue back := by
  have split : Nat.ofDigitChars 10 (front ++ back) 0 = Nat.ofDigitChars 10 back (digitsValue front) :=
    Nat.ofDigitChars_append 0
  have start : Nat.ofDigitChars 10 back (digitsValue front) =
      10 ^ back.length * digitsValue front + digitsValue back :=
    Nat.ofDigitChars_eq_ofDigitChars_zero
  rw [Nat.mul_comm, ← start, ← split]
  rfl

theorem digitsValue_zeros (count : Nat) : digitsValue (List.replicate count '0') = 0 := by
  have zero : Nat.ofDigitChars 10 (List.replicate count '0') 0 = 10 ^ count * 0 := Nat.ofDigitChars_replicate_zero
  rwa [Nat.mul_zero] at zero

theorem digitsValue_toDigits (n : Nat) : digitsValue (Nat.toDigits 10 n) = n := Nat.ofDigitChars_ten_toDigits

theorem head?_toDigits_ne {n : Nat} (positive : 0 < n) : (Nat.toDigits 10 n).head? ≠ some '0' := by
  induction n using Nat.strongRecOn with
  | ind n ih =>
    rw [Nat.toDigits_eq_if (by decide)]
    split
    · intro zero
      have zero : n = 0 := Nat.digitChar_eq_zero.mp (Option.some.inj zero)
      omega
    · have before := ih (n / 10) (by omega) (by omega)
      obtain ⟨lead, rest, digits⟩ := List.exists_cons_of_ne_nil (@Nat.toDigits_ne_nil (n / 10) 10)
      rw [digits] at before ⊢
      exact before

/-- Only zeros are dropped from the end, and all of them. -/
theorem exists_trimZeros (digits : List Char) :
    (∃ count, digits = trimZeros digits ++ List.replicate count '0') ∧ (trimZeros digits).getLast? ≠ some '0' := by
  have parts := @List.takeWhile_append_dropWhile _ (· == '0') digits.reverse
  have zeros : digits.reverse.takeWhile (· == '0') =
      List.replicate (digits.reverse.takeWhile (· == '0')).length '0' := by
    refine List.eq_replicate_iff.mpr ⟨rfl, fun c member => ?_⟩
    exact beq_iff_eq.mp (List.all_eq_true.mp List.all_takeWhile c member)
  constructor
  · refine ⟨(digits.reverse.takeWhile (· == '0')).length, ?_⟩
    rw [← List.reverse_replicate, ← zeros, trimZeros, ← List.reverse_append, parts, List.reverse_reverse]
  · rw [trimZeros, List.getLast?_reverse]
    intro zero
    have first := List.head?_dropWhile_not (· == '0') digits.reverse
    rw [zero] at first
    cases first

/-! Numbers are read back from their text. -/

theorem ite_natAbs_eq (n : Int) : (if decide (n < 0) = true then -(n.natAbs : Int) else n.natAbs) = n := by
  simp only [decide_eq_true_eq]
  split <;> omega

theorem exists_signedExponent (e : Int) :
    ∃ digits, signedExponent e = (if e < 0 then '-' else '+') :: digits ∧ AllDigits digits ∧
      digitsValue digits = e.natAbs ∧ 2 ≤ digits.length ∧ (2 < digits.length → digits.head? ≠ some '0') := by
  have size : 0 < (Nat.toDigits 10 e.natAbs).length := Nat.length_toDigits_pos
  refine ⟨_, rfl, (allDigits_zeros _).append (allDigits_toDigits _), ?_, ?_, ?_⟩
  · rw [digitsValue_append, digitsValue_zeros, digitsValue_toDigits]
    omega
  · rw [List.length_append, List.length_replicate]
    omega
  · rw [List.length_append, List.length_replicate]
    intro long
    have full : 2 - (Nat.toDigits 10 e.natAbs).length = 0 := by omega
    have positive : 0 < e.natAbs := by
      by_contra zero
      rw [Nat.eq_zero_of_not_pos zero, Nat.toDigits_zero] at long
      exact absurd long (by decide)
    rw [full]
    exact head?_toDigits_ne positive

theorem readExponent_signedExponent (e : Int) : readExponent ('e' :: signedExponent e) = some e := by
  obtain ⟨digits, text, all, value, two, _⟩ := exists_signedExponent e
  have nonempty : digits ≠ [] := by
    rintro rfl
    cases two
  have sign : readSign ((if e < 0 then '-' else '+') :: digits) = (decide (e < 0), digits) := by
    by_cases negative : e < 0
    · rw [if_pos negative, decide_eq_true negative, readSign]
    · rw [if_neg negative, decide_eq_false negative, readSign]
  rw [text, readExponent, if_pos (by decide)]
  simp only [sign, readDigits_eq all]
  rw [if_neg (by simp [nonempty]), value, ite_natAbs_eq]

/-- Digits with a point or without, and an exponent or none, are read as the number of all the digits, with
as many places as follow the point. -/
theorem readDecimal_pointed {whole fraction rest : List Char} {exponent : Int} (wholeDigits : AllDigits whole)
    (fractionDigits : AllDigits fraction) (nonempty : whole ≠ []) (read : readExponent rest = some exponent) :
    readDecimal (pointed whole fraction ++ rest) =
      some ⟨digitsValue (whole ++ fraction), exponent - fraction.length⟩ := by
  have mark := readExponent_eq_some_iff.mp read
  rw [readDecimal_eq_some_iff]
  by_cases empty : fraction = []
  · subst empty
    simpa [pointed] using DecimalLiteral.whole wholeDigits nonempty mark
  · have written := DecimalLiteral.pointed wholeDigits fractionDigits (by simp [nonempty]) mark
    simpa [pointed, empty] using written

/-- Digits in front of a point: at least one, and no zero in front of another digit. -/
structure WholeDigits (whole : List Char) : Prop where
  all : AllDigits whole
  nonempty : whole ≠ []
  lead : whole.head? = some '0' → whole = ['0']

/-- Digits behind a point: at least one, and no zero at the end. -/
structure FractionDigits (fraction : List Char) : Prop where
  all : AllDigits fraction
  nonempty : fraction ≠ []
  last : fraction.getLast? ≠ some '0'

/-- A number written positionally, with the digits `whole` in front of the point if there is one. -/
inductive Positional (whole : List Char) : List Char → Prop
  | integer (digits : WholeDigits whole) : Positional whole whole
  | pointed {fraction : List Char} (digits : WholeDigits whole) (places : FractionDigits fraction) :
      Positional whole (whole ++ '.' :: fraction)

/-- A number written with the exponent `e`: one digit other than zero in front of the point, and at least two
digits for the exponent, no more of them than needed. -/
inductive WithExponent (e : Int) : List Char → Prop
  | intro {lead : Char} {mantissa digits : List Char} (nonzero : lead ≠ '0')
      (positional : Positional [lead] mantissa) (all : AllDigits digits)
      (value : digitsValue digits = e.natAbs) (two : 2 ≤ digits.length)
      (needed : 2 < digits.length → digits.head? ≠ some '0') :
      WithExponent e (mantissa ++ 'e' :: (if e < 0 then '-' else '+') :: digits)

theorem Positional.mem {whole text : List Char} (positional : Positional whole text) {c : Char}
    (member : c ∈ text) :
    c.isDigit = true ∨ c = '.' := by
  cases positional with
  | integer digits => exact Or.inl (digits.all c member)
  | pointed digits places =>
    rcases List.mem_append.mp member with front | back
    · exact Or.inl (digits.all c front)
    · rcases List.mem_cons.mp back with point | back
      · exact Or.inr point
      · exact Or.inl (places.all c back)

theorem WithExponent.mem {e : Int} {text : List Char} (exponent : WithExponent e text) : 'e' ∈ text := by
  cases exponent with
  | intro => exact List.mem_append_right _ List.mem_cons_self

theorem positional_pointed {whole fraction : List Char} (digits : WholeDigits whole) (all : AllDigits fraction) :
    Positional whole (pointed whole (trimZeros fraction)) := by
  unfold pointed
  by_cases empty : trimZeros fraction = []
  · rw [empty]
    exact .integer digits
  · rw [List.isEmpty_eq_false_iff.mpr empty]
    exact .pointed digits ⟨fun c member => all c (mem_of_mem_trimZeros member), empty,
      (exists_trimZeros fraction).2⟩

/-- The digits in front of a point and behind it are those of a number whose leading digit has exponent `e`. -/
structure CutAt (digits : List Char) (e : Int) (whole fraction : List Char) : Prop where
  wholeDigits : WholeDigits whole
  fractionDigits : AllDigits fraction
  value : digitsValue (whole ++ fraction) = digitsValue digits
  places : (fraction.length : Int) = digits.length - 1 - e

theorem cutAt_splitAtPoint {digits : List Char} {e : Int} (all : AllDigits digits) (lead : digits.head? ≠ some '0')
    (fits : e < digits.length) : CutAt digits e (splitAtPoint digits e).1 (splitAtPoint digits e).2 := by
  cases e with
  | ofNat e =>
    have fits : e < digits.length := by simpa using fits
    have full : e + 1 - digits.length = 0 := by omega
    have first : (digits.take (e + 1)).head? = digits.head? := by rw [List.head?_take, if_neg (by omega)]
    simp only [splitAtPoint, full, List.replicate_zero, List.append_nil]
    refine ⟨⟨fun c member => all c (List.mem_of_mem_take member), ?_, fun zero => absurd (first ▸ zero) lead⟩,
      fun c member => all c (List.mem_of_mem_drop member), ?_, ?_⟩
    · rw [Ne, List.take_eq_nil_iff]
      rintro (none | rfl)
      · omega
      · simp at fits
    · rw [List.take_append_drop]
    · rw [List.length_drop]
      simp only [Int.ofNat_eq_natCast]
      omega
  | negSucc e =>
    refine ⟨⟨allDigits_zeros 1, List.cons_ne_nil _ _, fun _ => rfl⟩, (allDigits_zeros e).append all, ?_, ?_⟩
    · have zero : digitsValue ['0'] = 0 := rfl
      simp only [splitAtPoint, digitsValue_append, digitsValue_zeros, zero]
      omega
    · simp only [splitAtPoint, List.length_append, List.length_replicate]
      omega

/-- A decimal as a rational number. -/
def Decimal.value (d : Decimal) : ℚ := d.digits * 10 ^ d.scale

namespace CutAt

variable {digits whole fraction : List Char} {e : Int}

theorem positional (cut : CutAt digits e whole fraction) : Positional whole (pointed whole (trimZeros fraction)) :=
  positional_pointed cut.wholeDigits cut.fractionDigits

/-- The zeros that are dropped behind the point do not change the number. -/
theorem read (cut : CutAt digits e whole fraction) {rest : List Char} {exponent : Int}
    (read : readExponent rest = some exponent) :
    (readDecimal (pointed whole (trimZeros fraction) ++ rest)).map Decimal.value =
      some ((digitsValue digits : ℚ) * 10 ^ (exponent + e - (digits.length - 1))) := by
  have trimmed : AllDigits (trimZeros fraction) :=
    fun c member => cut.fractionDigits c (mem_of_mem_trimZeros member)
  obtain ⟨⟨count, zeros⟩, _⟩ := exists_trimZeros fraction
  have length : fraction.length = (trimZeros fraction).length + count := by
    have both := congrArg List.length zeros
    rwa [List.length_append, List.length_replicate] at both
  have value : digitsValue digits = digitsValue (whole ++ trimZeros fraction) * 10 ^ count := by
    have all := digitsValue_append (whole ++ trimZeros fraction) (List.replicate count '0')
    rw [List.append_assoc, ← zeros, digitsValue_zeros, List.length_replicate] at all
    rw [← cut.value, all, Nat.add_zero]
  have places := cut.places
  have scaled : (10 : ℚ) ^ count * 10 ^ (exponent + e - (digits.length - 1)) =
      10 ^ (exponent - (trimZeros fraction).length) := by
    rw [← zpow_natCast, ← zpow_add₀ (by norm_num)]
    congr 1
    omega
  rw [readDecimal_pointed cut.wholeDigits.all trimmed cut.wholeDigits.nonempty read, Option.map_some,
    Decimal.value, value, Nat.cast_mul, Nat.cast_pow, Nat.cast_ofNat, mul_assoc, scaled]

end CutAt

theorem cutAt_lead {lead : Char} {rest : List Char} (all : AllDigits (lead :: rest)) (nonzero : lead ≠ '0') :
    CutAt (lead :: rest) 0 [lead] rest := by
  refine ⟨⟨?_, List.cons_ne_nil _ _, ?_⟩, fun c member => all c (List.mem_cons_of_mem _ member), rfl, ?_⟩
  · intro c member
    exact all c (List.mem_singleton.mp member ▸ List.mem_cons_self)
  · intro zero
    exact absurd (Option.some.inj zero) nonzero
  · rw [List.length_cons]
    omega

/-! The displayed text of digits, of which there are as many as are displayed. -/

theorem generalDigits_fixed {digits : List Char} {e : Int} (fixed : -4 ≤ e ∧ e < 6) :
    generalDigits digits e = pointed (splitAtPoint digits e).1 (trimZeros (splitAtPoint digits e).2) := by
  have fixed : -4 ≤ e ∧ e < (displayPlaces : Int) := fixed
  rw [generalDigits, if_pos fixed]

theorem generalDigits_scientific {lead : Char} {rest : List Char} {e : Int} (scientific : ¬ (-4 ≤ e ∧ e < 6)) :
    generalDigits (lead :: rest) e = pointed [lead] (trimZeros rest) ++ 'e' :: signedExponent e := by
  have scientific : ¬ (-4 ≤ e ∧ e < (displayPlaces : Int)) := scientific
  rw [generalDigits, if_neg scientific]
  rfl

section Displayed

variable {digits : List Char} (e : Int) (all : AllDigits digits) (lead : digits.head? ≠ some '0')
  (six : digits.length = 6)

include all lead six

theorem withExponent_generalDigits (scientific : ¬ (-4 ≤ e ∧ e < 6)) : WithExponent e (generalDigits digits e) := by
  obtain ⟨first, rest, rfl⟩ := List.exists_cons_of_length_eq_add_one six
  have nonzero : first ≠ '0' := fun zero => lead (congrArg some zero)
  obtain ⟨exponent, text, exponentDigits, value, two, needed⟩ := exists_signedExponent e
  rw [generalDigits_scientific scientific, text]
  exact .intro nonzero (cutAt_lead all nonzero).positional exponentDigits value two needed

theorem positional_generalDigits_iff : (∃ whole, Positional whole (generalDigits digits e)) ↔ -4 ≤ e ∧ e < 6 := by
  constructor
  · rintro ⟨whole, positional⟩
    by_contra scientific
    rcases positional.mem (withExponent_generalDigits e all lead six scientific).mem with digit | point
    · exact absurd digit (by decide)
    · exact absurd point (by decide)
  · intro fixed
    rw [generalDigits_fixed fixed]
    exact ⟨_, (cutAt_splitAtPoint all lead (by omega)).positional⟩

theorem read_generalDigits :
    (readDecimal (generalDigits digits e)).map Decimal.value = some ((digitsValue digits : ℚ) * 10 ^ (e - 5)) := by
  by_cases fixed : -4 ≤ e ∧ e < 6
  · have ends : readExponent [] = some 0 := rfl
    have read := (cutAt_splitAtPoint all lead (show e < digits.length by omega)).read ends
    rw [generalDigits_fixed fixed, ← List.append_nil (pointed _ _), read, six]
    congr 3
    omega
  · obtain ⟨first, rest, rfl⟩ := List.exists_cons_of_length_eq_add_one six
    have nonzero : first ≠ '0' := fun zero => lead (congrArg some zero)
    have read := (cutAt_lead all nonzero).read (readExponent_signedExponent e)
    rw [generalDigits_scientific fixed, read, six]
    congr 3
    omega

end Displayed

end TreeCalc.Number
