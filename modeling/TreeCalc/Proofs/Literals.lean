import Mathlib.Tactic.Common
import TreeCalc.Number.Literal

namespace TreeCalc.Number

def AllDigits (text : List Char) : Prop := ∀ c ∈ text, c.isDigit = true

/-- A sign in front of a number, or none; whether it is a minus sign. -/
inductive SignLiteral : Bool → List Char → Prop
  | none : SignLiteral false []
  | plus : SignLiteral false ['+']
  | minus : SignLiteral true ['-']

/-- The exponent behind the digits of a number: nothing, or a letter, a sign or none, and digits. -/
inductive ExponentLiteral : List Char → Int → Prop
  | nothing : ExponentLiteral [] 0
  | marked {mark : Char} {sign digits : List Char} {negative : Bool} (letter : mark = 'e' ∨ mark = 'E')
      (signed : SignLiteral negative sign) (all : AllDigits digits) (nonempty : digits ≠ []) :
      ExponentLiteral (mark :: (sign ++ digits))
        (if negative then -(digitsValue digits : Int) else digitsValue digits)

/-- Digits, of which some may stand behind a point, and an exponent. There is at least one digit, on either side of
the point. -/
inductive DecimalLiteral : List Char → Decimal → Prop
  | whole {digits mark : List Char} {e : Int} (all : AllDigits digits) (nonempty : digits ≠ [])
      (exponent : ExponentLiteral mark e) : DecimalLiteral (digits ++ mark) ⟨digitsValue digits, e⟩
  | pointed {whole fraction mark : List Char} {e : Int} (wholeDigits : AllDigits whole)
      (fractionDigits : AllDigits fraction) (nonempty : whole ++ fraction ≠ [])
      (exponent : ExponentLiteral mark e) :
      DecimalLiteral (whole ++ '.' :: (fraction ++ mark))
        ⟨digitsValue (whole ++ fraction), e - fraction.length⟩

/-- The texts that are read as numbers: after a sign or none a decimal, or one of three words in letters of either
case. -/
inductive Literal : List Char → Float → Prop
  | decimal {sign text : List Char} {negative : Bool} {d : Decimal} (signed : SignLiteral negative sign)
      (written : DecimalLiteral text d) : Literal (sign ++ text) (d.toFloat negative)
  | infinity {sign word : List Char} {negative : Bool} (signed : SignLiteral negative sign)
      (letters : word.map Char.toLower = "inf".toList ∨ word.map Char.toLower = "infinity".toList) :
      Literal (sign ++ word) (Number.infinity negative)
  | nan {sign word : List Char} {negative : Bool} (signed : SignLiteral negative sign)
      (letters : word.map Char.toLower = "nan".toList) : Literal (sign ++ word) notANumber

/-! Reading takes a text apart in just one way. -/

theorem readDigits_append {digits rest : List Char} (all : AllDigits digits)
    (stop : ∀ c ∈ rest.head?, c.isDigit = false) : readDigits (digits ++ rest) = (digits, rest) := by
  have ends : rest.takeWhile Char.isDigit = [] ∧ rest.dropWhile Char.isDigit = rest := by
    cases rest with
    | nil => exact ⟨rfl, rfl⟩
    | cons c tail =>
      have other := stop c rfl
      simp [other]
  rw [readDigits, List.takeWhile_append_of_pos all, List.dropWhile_append_of_pos all, ends.1, ends.2,
    List.append_nil]

theorem readDigits_eq {digits : List Char} (all : AllDigits digits) : readDigits digits = (digits, []) := by
  have none : ∀ c ∈ ([] : List Char).head?, c.isDigit = false := by simp
  have read := readDigits_append all none
  rwa [List.append_nil] at read

theorem exists_readDigits (text : List Char) :
    ∃ digits rest, readDigits text = (digits, rest) ∧ AllDigits digits ∧ text = digits ++ rest :=
  ⟨_, _, rfl, fun _ member => List.all_eq_true.mp List.all_takeWhile _ member,
    List.takeWhile_append_dropWhile.symm⟩

/-- A text with no sign in front. -/
def Unsigned (text : List Char) : Prop := ∀ c ∈ text.head?, c ≠ '-' ∧ c ≠ '+'

theorem isDigit_ne_sign {c : Char} (digit : c.isDigit = true) : c ≠ '-' ∧ c ≠ '+' := by
  constructor
  · rintro rfl
    cases digit
  · rintro rfl
    cases digit

theorem AllDigits.unsigned {digits : List Char} (all : AllDigits digits) : Unsigned digits :=
  fun c first => isDigit_ne_sign (all c (List.mem_of_mem_head? first))

theorem SignLiteral.read {negative : Bool} {sign rest : List Char} (signed : SignLiteral negative sign)
    (unsigned : Unsigned rest) : readSign (sign ++ rest) = (negative, rest) := by
  cases signed with
  | plus | minus => rfl
  | none =>
    cases rest with
    | nil => rfl
    | cons c tail =>
      obtain ⟨minus, plus⟩ := unsigned c rfl
      rw [List.nil_append, readSign]
      · rintro _ ⟨⟩
        exact minus rfl
      · rintro _ ⟨⟩
        exact plus rfl

theorem exists_readSign (text : List Char) :
    ∃ negative sign rest, readSign text = (negative, rest) ∧ SignLiteral negative sign ∧ text = sign ++ rest := by
  unfold readSign
  split
  · exact ⟨true, _, _, rfl, .minus, rfl⟩
  · exact ⟨false, _, _, rfl, .plus, rfl⟩
  · exact ⟨false, _, _, rfl, .none, rfl⟩

theorem ExponentLiteral.read {text : List Char} {e : Int} (written : ExponentLiteral text e) :
    readExponent text = some e := by
  cases written with
  | nothing => rfl
  | @marked mark sign digits negative letter signed all nonempty =>
    rw [readExponent, if_pos (by simpa using letter)]
    simp only [signed.read all.unsigned, readDigits_eq all]
    rw [if_neg (by simp [nonempty])]

theorem exponentLiteral_of_read {text : List Char} {e : Int} (read : readExponent text = some e) :
    ExponentLiteral text e := by
  cases text with
  | nil =>
    cases read
    exact .nothing
  | cons mark text =>
    obtain ⟨negative, sign, rest, readFront, signed, rfl⟩ := exists_readSign text
    obtain ⟨digits, after, readBack, all, rfl⟩ := exists_readDigits rest
    simp only [readExponent, readFront, readBack, Option.ite_none_right_eq_some, Option.ite_none_left_eq_some,
      Bool.or_eq_true, beq_iff_eq, List.isEmpty_iff, Bool.not_eq_true', List.isEmpty_eq_false_iff, not_or,
      not_not, Option.some.injEq] at read
    obtain ⟨letter, ⟨nonempty, rfl⟩, rfl⟩ := read
    rw [List.append_nil]
    exact .marked letter signed all nonempty

theorem readExponent_eq_some_iff {text : List Char} {e : Int} :
    readExponent text = some e ↔ ExponentLiteral text e :=
  ⟨exponentLiteral_of_read, ExponentLiteral.read⟩

/-- An exponent does not start with what stands in front of it. -/
theorem ExponentLiteral.head {text : List Char} {e : Int} (written : ExponentLiteral text e) :
    ∀ c ∈ text.head?, c.isDigit = false ∧ c ≠ '.' := by
  cases written with
  | nothing => nofun
  | marked letter =>
    rintro c ⟨⟩
    rcases letter with rfl | rfl
    · decide
    · decide

theorem DecimalLiteral.read {text : List Char} {d : Decimal} (written : DecimalLiteral text d) :
    readDecimal text = some d := by
  cases written with
  | @whole digits mark e all nonempty exponent =>
    have front := readDigits_append all fun c first => (exponent.head c first).1
    unfold readDecimal
    simp only [front]
    split
    · exact absurd rfl (exponent.head '.' rfl).2
    · simp [nonempty, exponent.read]
  | @pointed whole fraction mark e wholeDigits fractionDigits nonempty exponent =>
    have point : ∀ c ∈ ('.' :: (fraction ++ mark)).head?, c.isDigit = false := by simp
    have front := readDigits_append wholeDigits point
    have back := readDigits_append fractionDigits fun c first => (exponent.head c first).1
    unfold readDecimal
    simp only [front, back, exponent.read]
    have some : (whole.isEmpty && fraction.isEmpty) = false := by simpa using nonempty
    simp [some]

theorem decimalLiteral_of_read {text : List Char} {d : Decimal} (read : readDecimal text = some d) :
    DecimalLiteral text d := by
  obtain ⟨whole, rest, front, wholeDigits, rfl⟩ := exists_readDigits text
  simp only [readDecimal, front] at read
  split at read
  · rename_i after
    obtain ⟨fraction, mark, back, fractionDigits, rfl⟩ := exists_readDigits after
    simp only [back, Option.ite_none_left_eq_some, Option.bind_eq_bind, Option.bind_eq_some_iff,
      Option.some.injEq] at read
    obtain ⟨some, e, exponent, rfl⟩ := read
    exact .pointed wholeDigits fractionDigits (by simpa using some) (exponentLiteral_of_read exponent)
  · simp only [Option.ite_none_left_eq_some, Option.bind_eq_bind, Option.bind_eq_some_iff,
      Option.some.injEq] at read
    obtain ⟨some, e, exponent, rfl⟩ := read
    rw [List.append_nil, List.length_nil, Int.natCast_zero, Int.sub_zero]
    exact .whole wholeDigits (by simpa using some) (exponentLiteral_of_read exponent)

theorem readDecimal_eq_some_iff {text : List Char} {d : Decimal} :
    readDecimal text = some d ↔ DecimalLiteral text d :=
  ⟨decimalLiteral_of_read, DecimalLiteral.read⟩

theorem toLower_of_isDigit {c : Char} (digit : c.isDigit = true) : c.toLower = c := by
  have low : c.val ≤ '9'.val := by
    simp only [Char.isDigit, Bool.and_eq_true, decide_eq_true_eq] at digit
    exact digit.2
  exact dif_neg fun upper => absurd (UInt32.le_trans upper.1 low) (by decide)

/-- A decimal starts with a digit or a point, which has no other case. -/
theorem DecimalLiteral.starts {text : List Char} {d : Decimal} (written : DecimalLiteral text d) :
    ∃ c rest, text = c :: rest ∧ c.toLower = c ∧ (c.isDigit = true ∨ c = '.') := by
  have digits : ∀ {front : List Char} (back : List Char), AllDigits front → front ≠ [] →
      ∃ c rest, front ++ back = c :: rest ∧ c.toLower = c ∧ (c.isDigit = true ∨ c = '.') := by
    intro front back all nonempty
    obtain ⟨c, others, rfl⟩ := List.exists_cons_of_ne_nil nonempty
    have digit := all c List.mem_cons_self
    exact ⟨c, _, rfl, toLower_of_isDigit digit, Or.inl digit⟩
  cases written with
  | whole all nonempty => exact digits _ all nonempty
  | @pointed whole fraction mark e wholeDigits =>
    by_cases none : whole = []
    · subst none
      exact ⟨'.', _, rfl, by decide, Or.inr rfl⟩
    · exact digits _ wholeDigits none

theorem DecimalLiteral.unsigned {text : List Char} {d : Decimal} (written : DecimalLiteral text d) :
    Unsigned text := by
  obtain ⟨c, rest, rfl, -, start⟩ := written.starts
  rintro _ ⟨⟩
  rcases start with digit | rfl
  · exact isDigit_ne_sign digit
  · decide

/-- A decimal is no word. -/
theorem DecimalLiteral.ne_word {text letters : List Char} {d : Decimal} {first : Char}
    (written : DecimalLiteral text d) (letter : first.isDigit = false ∧ first ≠ '.') :
    text.map Char.toLower ≠ first :: letters := by
  obtain ⟨c, rest, rfl, same, start⟩ := written.starts
  intro word
  obtain rfl : c = first := same.symm.trans (List.cons.inj word).1
  rcases start with digit | rfl
  · rw [digit] at letter
    cases letter.1
  · exact letter.2 rfl

theorem unsigned_of_word {word letters : List Char} {first : Char}
    (lower : word.map Char.toLower = first :: letters) (letter : first ≠ '-' ∧ first ≠ '+') : Unsigned word := by
  obtain ⟨c, rest, rfl, rfl, -⟩ := List.map_eq_cons_iff.mp lower
  rintro _ ⟨⟩
  constructor
  · rintro rfl
    exact letter.1 rfl
  · rintro rfl
    exact letter.2 rfl

theorem Literal.read {text : String} {x : Float} (literal : Literal text.toList x) : read? text = some x := by
  unfold read?
  generalize text.toList = chars at literal ⊢
  cases literal with
  | decimal signed written =>
    simp only [signed.read written.unsigned, written.read]
    rw [if_neg, if_neg, Option.map_some]
    · simpa using written.ne_word (by decide)
    · simpa using ⟨written.ne_word (by decide), written.ne_word (by decide)⟩
  | infinity signed letters =>
    have unsigned : Unsigned _ := letters.elim (unsigned_of_word · (by decide)) (unsigned_of_word · (by decide))
    simp only [signed.read unsigned]
    rw [if_pos (by simpa using letters)]
  | nan signed letters =>
    simp only [signed.read (unsigned_of_word letters (by decide)), letters]
    rfl

theorem literal_of_read {text : String} {x : Float} (read : read? text = some x) : Literal text.toList x := by
  unfold read? at read
  obtain ⟨negative, sign, rest, front, signed, parts⟩ := exists_readSign text.toList
  simp only [front] at read
  rw [parts]
  split at read
  · rename_i letters
    cases read
    exact .infinity signed (by simpa using letters)
  · split at read
    · rename_i letters
      cases read
      exact .nan signed (by simpa using letters)
    · obtain ⟨d, decimal, rfl⟩ := Option.map_eq_some_iff.mp read
      exact .decimal signed (decimalLiteral_of_read decimal)

/-- Reading accepts just these texts, with the number that they stand for. -/
theorem read?_eq_some_iff {text : String} {x : Float} : read? text = some x ↔ Literal text.toList x :=
  ⟨literal_of_read, Literal.read⟩

end TreeCalc.Number
