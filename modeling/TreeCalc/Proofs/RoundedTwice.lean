import TreeCalc.Proofs.DecimalText
import TreeCalc.Proofs.Rounding
import TreeCalc.Proofs.TextRuns

namespace TreeCalc.Number

/-- A number with a sign in front of it if it is negative. -/
def signed (negative : Bool) (text : List Char) : List Char := if negative then '-' :: text else text

/-- An integer, with a sign only if it is negative. -/
def integerText (n : Int) : List Char := signed (decide (n < 0)) (Nat.toDigits 10 n.natAbs)

/-- A positive number with one digit in front of the point, `places` behind it, and an exponent. -/
def scientificText (places : Nat) (x : Fraction) : List Char :=
  let d := x.toDecimal (places + 1)
  pointed (d.text.take 1) (d.text.drop 1) ++ 'e' :: integerText d.exponent

/-- A positive number with `places` digits behind the point. -/
def fixedText (places : Nat) (x : Fraction) : List Char :=
  let digits := Nat.toDigits 10 (x.scale 10 places).round
  let padded := List.replicate (places + 1 - digits.length) '0' ++ digits
  pointed (padded.take (padded.length - places)) (padded.drop (padded.length - places))

/-- Cuts a text at its first `e`, if it has one. -/
def splitAtMark (text : List Char) : Option (List Char × List Char) :=
  match text.dropWhile (· != 'e') with
  | [] => none
  | _ :: rest => some (text.takeWhile (· != 'e'), rest)

/-- Reads an integer of thirty-two bits. -/
def readInteger (text : List Char) : Option Int :=
  let (negative, rest) := readSign text
  let (digits, after) := readDigits rest
  if digits.isEmpty || !after.isEmpty then none
  else
    let n : Int := if negative then -(digitsValue digits : Int) else digitsValue digits
    if -2147483648 ≤ n ∧ n ≤ 2147483647 then some n else none

/-- Drops the zeros at the end of a text with a point, and then the point if it is the end. -/
def trimFraction (text : List Char) : List Char :=
  if text.contains '.' then ((trimZeros text).reverse.dropWhile (· == '.')).reverse else text

/-- Displays a number by rounding it twice. Written with an exponent, it shows which exponent six digits have,
and with that exponent how many places they need; written anew with so many places, it loses its last zeros.
There is no text if no exponent is found in the first one, if it cannot be read, or if it leaves a negative
number of places. -/
def roundedTwice (x : Float) : Option (List Char) :=
  match decode x with
  | .finite b => do
    let (mantissa, exponent) ← splitAtMark (signed b.negative (scientificText 5 b.magnitude))
    let e ← readInteger exponent
    if -4 ≤ e ∧ e < 6 then
      let places ← (5 - e).toNat?
      some (trimFraction (signed b.negative (fixedText places b.magnitude)))
    else some (trimFraction mantissa ++ 'e' :: signedExponent e)
  | _ => none

theorem signed_pointed (negative : Bool) (whole fraction : List Char) :
    signed negative (pointed whole fraction) = pointed (signed negative whole) fraction := by
  cases negative with
  | false => rfl
  | true =>
    simp only [signed, if_true, pointed]
    split <;> rfl

theorem signed_append (negative : Bool) (front back : List Char) :
    signed negative (front ++ back) = signed negative front ++ back := by
  cases negative with
  | false => rfl
  | true => rfl

theorem notMem_signed {negative : Bool} {digits : List Char} (all : AllDigits digits) {c : Char}
    (other : c.isDigit = false) (notSign : c ≠ '-') : c ∉ signed negative digits := by
  intro member
  have origin : c = '-' ∨ c ∈ digits := by
    cases negative with
    | false => exact Or.inr member
    | true => exact List.mem_cons.mp member
  rcases origin with sign | digit
  · exact notSign sign
  · have plain := all c digit
    rw [other] at plain
    cases plain

theorem splitAtMark_eq {front rest : List Char} (plain : 'e' ∉ front) :
    splitAtMark (front ++ 'e' :: rest) = some (front, rest) := by
  rw [splitAtMark, Text.dropWhile_mark plain, Text.takeWhile_mark plain]

theorem readSign_signed (negative : Bool) {text : List Char} (unsigned : Unsigned text) :
    readSign (signed negative text) = (negative, text) := by
  cases negative with
  | false => exact SignLiteral.none.read unsigned
  | true => exact SignLiteral.minus.read unsigned

theorem readInteger_integerText {n : Int} (lower : -2147483648 ≤ n) (upper : n ≤ 2147483647) :
    readInteger (integerText n) = some n := by
  have all := allDigits_toDigits n.natAbs
  simp only [readInteger, integerText, readSign_signed _ all.unsigned, readDigits_eq all, digitsValue_toDigits,
    ite_natAbs_eq]
  rw [if_neg (by simp [Nat.toDigits_ne_nil]), if_pos ⟨lower, upper⟩]

theorem trimEnd_append {p : Char → Bool} {front back : List Char} (all : ∀ c ∈ back, p c = true)
    (stop : ∀ c ∈ front.getLast?, p c = false) : ((front ++ back).reverse.dropWhile p).reverse = front := by
  have dropped : ∀ c ∈ back.reverse, p c = true := fun c member => all c (List.mem_reverse.mp member)
  rw [List.reverse_append, List.dropWhile_append_of_pos dropped, List.reverse_eq_iff]
  rw [← List.head?_reverse] at stop
  cases rest : front.reverse with
  | nil => rfl
  | cons c tail =>
    rw [rest] at stop
    rw [List.dropWhile_cons, stop c rfl]
    rfl

theorem getLast?_pointed (front fraction : List Char) :
    (front ++ '.' :: fraction).getLast? = some (fraction.getLast?.getD '.') := by
  rw [List.getLast?_append, List.getLast?_cons, Option.some_or]

theorem trimZeros_pointed (front fraction : List Char) :
    trimZeros (front ++ '.' :: fraction) = front ++ '.' :: trimZeros fraction := by
  obtain ⟨⟨count, zeros⟩, last⟩ := exists_trimZeros fraction
  have whole : front ++ '.' :: fraction = (front ++ '.' :: trimZeros fraction) ++ List.replicate count '0' := by
    rw [List.append_assoc, List.cons_append, ← zeros]
  have stop : ∀ c ∈ (front ++ '.' :: trimZeros fraction).getLast?, (c == '0') = false := by
    intro c final
    rw [getLast?_pointed] at final
    obtain rfl := Option.some.inj final
    cases rest : (trimZeros fraction).getLast? with
    | none => decide
    | some d => exact beq_false_of_ne fun zero => last (zero ▸ rest)
  rw [whole, trimZeros, trimEnd_append (fun c member => ?_) stop]
  exact beq_iff_eq.mpr (List.eq_of_mem_replicate member)

/-- Trimming drops the zeros behind the point, and never a zero in front of it. -/
theorem trimFraction_pointed {front fraction : List Char} (plain : '.' ∉ front) (all : AllDigits fraction) :
    trimFraction (pointed front fraction) = pointed front (trimZeros fraction) := by
  unfold trimFraction
  by_cases empty : fraction = []
  · have same : pointed front fraction = front := by rw [empty]; rfl
    have clear : front.contains '.' = false := by simpa using plain
    rw [same, clear, empty]
    rfl
  · have same : pointed front fraction = front ++ '.' :: fraction := by
      rw [pointed, List.isEmpty_eq_false_iff.mpr empty]
      rfl
    have point : (front ++ '.' :: fraction).contains '.' = true := by simp
    rw [same, if_pos point, trimZeros_pointed]
    by_cases trimmed : trimZeros fraction = []
    · have stop : ∀ c ∈ front.getLast?, (c == '.') = false := by
        intro c final
        exact beq_false_of_ne fun same => plain (same ▸ List.mem_of_getLast? final)
      rw [trimmed, trimEnd_append (by simp) stop]
      rfl
    · have stop : ∀ c ∈ (front ++ '.' :: trimZeros fraction).getLast?, (c == '.') = false := by
        intro c final
        rw [getLast?_pointed, List.getLast?_eq_some_getLast trimmed, Option.getD_some] at final
        obtain rfl := Option.some.inj final
        have digit := all _ (mem_of_mem_trimZeros (List.getLast_mem trimmed))
        refine beq_false_of_ne fun same => ?_
        rw [same] at digit
        cases digit
      have kept := trimEnd_append (show ∀ c ∈ ([] : List Char), (c == '.') = true by simp) stop
      rw [List.append_nil] at kept
      rw [kept, pointed, List.isEmpty_eq_false_iff.mpr trimmed]
      rfl

theorem trimFraction_signed (negative : Bool) {whole fraction : List Char} (wholeDigits : AllDigits whole)
    (fractionDigits : AllDigits fraction) :
    trimFraction (signed negative (pointed whole fraction)) =
      signed negative (pointed whole (trimZeros fraction)) := by
  rw [signed_pointed, trimFraction_pointed (notMem_signed wholeDigits (by decide) (by decide)) fractionDigits,
    signed_pointed]

theorem splitAtMark_signed (negative : Bool) {whole fraction rest : List Char} (wholeDigits : AllDigits whole)
    (fractionDigits : AllDigits fraction) :
    splitAtMark (signed negative (pointed whole fraction ++ 'e' :: rest)) =
      some (signed negative (pointed whole fraction), rest) := by
  rw [signed_append]
  refine splitAtMark_eq fun member => ?_
  rw [signed_pointed] at member
  rcases mem_of_mem_pointed member with front | point | back
  · exact notMem_signed wholeDigits (by decide) (by decide) front
  · exact absurd point (by decide)
  · exact absurd (fractionDigits _ back) (by decide)

/-- Digits are cut at the point also by filling them up in front and counting the places from the end. -/
theorem splitAtPoint_eq {digits : List Char} {e : ℤ} {places : ℕ} (left : digits.length - 1 - e = places) :
    splitAtPoint digits e =
      ((List.replicate (places + 1 - digits.length) '0' ++ digits).take
          ((List.replicate (places + 1 - digits.length) '0' ++ digits).length - places),
        (List.replicate (places + 1 - digits.length) '0' ++ digits).drop
          ((List.replicate (places + 1 - digits.length) '0' ++ digits).length - places)) := by
  cases e with
  | ofNat e =>
    have fits : digits.length = places + (e + 1) := by
      simp only [Int.ofNat_eq_natCast] at left
      omega
    have full : places + 1 - digits.length = 0 := by omega
    have whole : digits.length - places = e + 1 := by omega
    have enough : e + 1 - digits.length = 0 := by omega
    simp only [splitAtPoint, full, whole, enough, List.replicate_zero, List.append_nil, List.nil_append]
  | negSucc e =>
    have fill : places + 1 - digits.length = e + 1 := by omega
    have one : (List.replicate (e + 1) '0' ++ digits).length - places = 1 := by
      rw [List.length_append, List.length_replicate]
      omega
    rw [fill, one]
    rfl

/-- With the places that the exponent leaves for six digits, a number shows just these digits. -/
theorem fixedText_eq {x : Fraction} {m : ℕ} {e : ℤ} (positive : 0 < x.den) (rounds : Rounds 5 x.value m e)
    {places : ℕ} (left : 5 - e = places) (six : (Nat.toDigits 10 m).length = 6) :
    fixedText places x = pointed (splitAtPoint (Nat.toDigits 10 m) e).1 (splitAtPoint (Nat.toDigits 10 m) e).2 := by
  have nearest := Fraction.nearestEven_round (Fraction.den_scale_pos positive (show 0 < 10 by decide) places)
  rw [Fraction.value_scale x (by decide)] at nearest
  have digits : (x.scale 10 places).round = m := nearest.unique (left ▸ rounds.nearestEven)
  rw [fixedText, digits, splitAtPoint_eq (show ((Nat.toDigits 10 m).length : ℤ) - 1 - e = places by omega)]

end TreeCalc.Number
