import TreeCalc.Number.General

namespace TreeCalc.Number

/-- The characters of displayed numbers: digits, a point, signs, and the letters of `e`, `inf` and `nan`. -/
def isNumeral (c : Char) : Bool := c.isDigit || ".+-einaf".toList.contains c

/-- A text of such characters only. -/
structure Numeral where
  text : String
  plain : ∀ c ∈ text.toList, isNumeral c = true

/-- What is made of characters of displayed numbers contains no other character. -/
theorem Numeral.notMem (numeral : Numeral) {c : Char} (foreign : isNumeral c = false) :
    c ∉ numeral.text.toList := by
  intro member
  have own := numeral.plain c member
  rw [foreign] at own
  cases own

theorem isNumeral_of_mem_toDigits {n : Nat} {c : Char} (member : c ∈ Nat.toDigits 10 n) : isNumeral c = true := by
  have digit := Nat.isDigit_of_mem_toDigits (by decide) (by decide) member
  simp only [isNumeral, digit, Bool.true_or]

theorem mem_of_mem_trimZeros {digits : List Char} {c : Char} (member : c ∈ trimZeros digits) : c ∈ digits := by
  have kept : c ∈ digits.reverse.dropWhile (· == '0') := List.mem_reverse.mp member
  exact List.mem_reverse.mp ((List.dropWhile_sublist _).mem kept)

theorem mem_of_mem_pointed {whole fraction : List Char} {c : Char} (member : c ∈ pointed whole fraction) :
    c ∈ whole ∨ c = '.' ∨ c ∈ fraction := by
  unfold pointed at member
  split at member
  · exact Or.inl member
  · simpa using member

theorem mem_of_mem_splitAtPoint {digits : List Char} {e : Int} {c : Char}
    (member : c ∈ (splitAtPoint digits e).1 ∨ c ∈ (splitAtPoint digits e).2) : c ∈ digits ∨ c = '0' := by
  cases e with
  | ofNat e =>
    rcases member with whole | fraction
    · rcases List.mem_append.mp whole with front | zeros
      · exact Or.inl (List.mem_of_mem_take front)
      · exact Or.inr (List.eq_of_mem_replicate zeros)
    · exact Or.inl (List.mem_of_mem_drop fraction)
  | negSucc e =>
    rcases member with whole | fraction
    · exact Or.inr (List.mem_singleton.mp whole)
    · rcases List.mem_append.mp fraction with zeros | back
      · exact Or.inr (List.eq_of_mem_replicate zeros)
      · exact Or.inl back

theorem isNumeral_of_mem_signedExponent {e : Int} {c : Char} (member : c ∈ signedExponent e) :
    isNumeral c = true := by
  rcases List.mem_cons.mp member with sign | rest
  · rw [sign]
    split <;> decide
  · rcases List.mem_append.mp rest with zeros | digits
    · rw [List.eq_of_mem_replicate zeros]
      decide
    · exact isNumeral_of_mem_toDigits digits

theorem isNumeral_of_mem_generalDigits {digits : List Char} {e : Int}
    (plain : ∀ c ∈ digits, isNumeral c = true) : ∀ c ∈ generalDigits digits e, isNumeral c = true := by
  intro c member
  have point : isNumeral '.' = true := by decide
  unfold generalDigits at member
  split at member
  · have origin : c ∈ digits ∨ c = '0' ∨ c = '.' := by
      rcases mem_of_mem_pointed member with whole | point | fraction
      · exact (mem_of_mem_splitAtPoint (Or.inl whole)).imp_right Or.inl
      · exact Or.inr (Or.inr point)
      · exact (mem_of_mem_splitAtPoint (Or.inr (mem_of_mem_trimZeros fraction))).imp_right Or.inl
    rcases origin with digit | rfl | rfl
    · exact plain c digit
    · decide
    · exact point
  · rcases List.mem_append.mp member with mantissa | exponent
    · rcases mem_of_mem_pointed mantissa with whole | rfl | fraction
      · exact plain c (List.mem_of_mem_take whole)
      · exact point
      · exact plain c (List.mem_of_mem_drop (mem_of_mem_trimZeros fraction))
    · rcases List.mem_cons.mp exponent with rfl | rest
      · decide
      · exact isNumeral_of_mem_signedExponent rest

theorem isNumeral_of_mem_general (x : Float) : ∀ c ∈ (general x).toList, isNumeral c = true := by
  unfold general
  split
  · exact List.all_eq_true.mp (by decide)
  · split <;> exact List.all_eq_true.mp (by decide)
  · next b _ =>
    have size : ∀ c ∈ (if b.mantissa = 0 then ['0'] else generalMagnitude b.magnitude), isNumeral c = true := by
      split
      · exact List.all_eq_true.mp (by decide)
      · exact isNumeral_of_mem_generalDigits fun c member => isNumeral_of_mem_toDigits member
    intro c member
    rw [String.toList_ofList] at member
    split at member
    · rcases List.mem_cons.mp member with rfl | rest
      · decide
      · exact size c rest
    · exact size c member

/-- The displayed text of a number, with the proof that it is made of the characters of displayed numbers. -/
def numeral (x : Float) : Numeral := ⟨general x, isNumeral_of_mem_general x⟩

end TreeCalc.Number
