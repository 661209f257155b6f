import TreeCalc.Proofs.TextRuns
import TreeCalc.Text.Quoted

namespace TreeCalc.Text

def hexDigit (c : Char) : Nat := if c.isDigit then c.toNat - '0'.toNat else c.toNat - 'a'.toNat + 10

/-- The number that a word of hexadecimal digits stands for. -/
def hexValue (digits : List Char) : Nat := digits.foldl (fun n c => 16 * n + hexDigit c) 0

theorem hexDigit_digitChar {n : Nat} (small : n < 16) : hexDigit n.digitChar = n := by
  have all : ∀ m : Fin 16, hexDigit m.val.digitChar = m.val := by decide
  exact all ⟨n, small⟩

theorem hexValue_toDigits (n : Nat) : hexValue (Nat.toDigits 16 n) = n := by
  induction n using Nat.strongRecOn with
  | ind n ih =>
    by_cases small : n < 16
    · rw [Nat.toDigits_of_lt_base small]
      exact (Nat.zero_add _).trans (hexDigit_digitChar small)
    · have front := ih (n / 16) (by omega)
      rw [hexValue] at front
      rw [Nat.toDigits_of_base_le (by decide) (by omega), hexValue, List.foldl_append, front]
      show 16 * (n / 16) + hexDigit (n % 16).digitChar = n
      rw [hexDigit_digitChar (Nat.mod_lt n (by decide))]
      omega

theorem brace_notMem_toDigits (n : Nat) : '\x7d' ∉ Nat.toDigits 16 n := by
  induction n using Nat.strongRecOn with
  | ind n ih =>
    have other : ∀ {m : Nat}, m.digitChar ≠ '\x7d' := Nat.digitChar_ne '\x7d' (by decide)
    by_cases small : n < 16
    · rw [Nat.toDigits_of_lt_base small, List.mem_singleton]
      exact other.symm
    · rw [Nat.toDigits_of_base_le (by decide) (by omega), List.mem_append, List.mem_singleton]
      exact fun member => member.elim (ih (n / 16) (by omega)) other.symm

/-- The character that a letter after a backslash stands for. -/
def unescaped (c : Char) : Char :=
  if c = 't' then '\t' else if c = 'n' then '\n' else if c = 'r' then '\r' else if c = '0' then '\x00' else c

/-- Reads one character inside quotes. -/
def readEscaped : List Char → Option (Char × List Char)
  | [] => none
  | '\\' :: 'u' :: '\x7b' :: text =>
    some (Char.ofNat (hexValue (text.takeWhile (· != '\x7d'))), (text.dropWhile (· != '\x7d')).tail)
  | '\\' :: c :: rest => some (unescaped c, rest)
  | c :: rest => some (c, rest)

theorem readEscaped_numbered (c : Char) (rest : List Char) : readEscaped (numbered c ++ rest) = some (c, rest) := by
  have free := brace_notMem_toDigits c.toNat
  have written : numbered c ++ rest = '\\' :: 'u' :: '\x7b' :: (Nat.toDigits 16 c.toNat ++ '\x7d' :: rest) := by
    simp [numbered]
  rw [written, readEscaped, takeWhile_mark free, dropWhile_mark free, hexValue_toDigits, Char.ofNat_toNat]
  rfl

/-- A character inside quotes stands for itself, or is a backslash and a letter, or is given by number. -/
theorem escaped_cases (c : Char) :
    (escaped c = [c] ∧ c ≠ '\\' ∧ c ≠ '"') ∨
      (∃ mark, escaped c = ['\\', mark] ∧ mark ≠ 'u' ∧ unescaped mark = c) ∨ escaped c = numbered c := by
  by_cases quote : c = '"'
  · subst quote
    exact Or.inr (Or.inl ⟨'"', by decide⟩)
  by_cases backslash : c = '\\'
  · subst backslash
    exact Or.inr (Or.inl ⟨'\\', by decide⟩)
  by_cases tab : c = '\t'
  · subst tab
    exact Or.inr (Or.inl ⟨'t', by decide⟩)
  by_cases newline : c = '\n'
  · subst newline
    exact Or.inr (Or.inl ⟨'n', by decide⟩)
  by_cases back : c = '\r'
  · subst back
    exact Or.inr (Or.inl ⟨'r', by decide⟩)
  by_cases zero : c = '\x00'
  · subst zero
    exact Or.inr (Or.inl ⟨'0', by decide⟩)
  unfold escaped
  rw [if_neg quote, if_neg backslash, if_neg tab, if_neg newline, if_neg back, if_neg zero]
  split
  · exact Or.inr (Or.inr rfl)
  · exact Or.inl ⟨rfl, backslash, quote⟩

theorem readEscaped_escaped (c : Char) (rest : List Char) : readEscaped (escaped c ++ rest) = some (c, rest) := by
  obtain ⟨itself, backslash, _⟩ | ⟨mark, letter, other, meaning⟩ | number := escaped_cases c
  · rw [itself, List.singleton_append]
    unfold readEscaped
    split
    next nothing => cases nothing
    next same => exact absurd (List.cons.inj same).1 backslash
    next same => exact absurd (List.cons.inj same).1 backslash
    next same =>
      obtain ⟨rfl, rfl⟩ := List.cons.inj same
      rfl
  · rw [letter, ← meaning]
    unfold readEscaped
    split
    next nothing => cases nothing
    next same => exact absurd (List.cons.inj (List.cons.inj same).2).1 other
    next same =>
      obtain ⟨rfl, rfl⟩ := List.cons.inj (List.cons.inj same).2
      rfl
    next unmarked same =>
      obtain ⟨rfl, rfl⟩ := List.cons.inj same
      exact (unmarked mark rest rfl rfl).elim
  · rw [number]
    exact readEscaped_numbered c rest

/-- No character inside quotes looks like the quote at their end. -/
theorem escaped_append_ne (c : Char) (rest more : List Char) : escaped c ++ rest ≠ '"' :: more := by
  intro same
  obtain ⟨itself, _, quote⟩ | ⟨mark, letter, _, _⟩ | number := escaped_cases c
  · rw [itself] at same
    exact quote (List.cons.inj same).1
  · rw [letter] at same
    exact absurd (List.cons.inj same).1 (by decide)
  · rw [number] at same
    exact absurd (List.cons.inj same).1 (by decide)

/-- A quoted text ends where its own quote stands, whatever it contains. -/
theorem eq_of_quoted_append {left right : String} {rest more : List Char}
    (same : (quoted left).toList ++ rest = (quoted right).toList ++ more) : left = right ∧ rest = more := by
  have inside : ∀ {left right : List Char},
      left.flatMap escaped ++ '"' :: rest = right.flatMap escaped ++ '"' :: more → left = right ∧ rest = more := by
    intro left
    induction left with
    | nil =>
      intro right same
      cases right with
      | nil => exact ⟨rfl, (List.cons.inj same).2⟩
      | cons d right =>
        rw [List.flatMap_cons, List.append_assoc] at same
        exact absurd same.symm (escaped_append_ne _ _ _)
    | cons c left ih =>
      intro right same
      rw [List.flatMap_cons, List.append_assoc] at same
      cases right with
      | nil => exact absurd same (escaped_append_ne _ _ _)
      | cons d right =>
        rw [List.flatMap_cons, List.append_assoc] at same
        have read := congrArg readEscaped same
        rw [readEscaped_escaped, readEscaped_escaped] at read
        obtain ⟨rfl, others⟩ := Prod.mk.inj (Option.some.inj read)
        obtain ⟨rfl, rest⟩ := ih others
        exact ⟨rfl, rest⟩
  simp only [quoted, String.toList_ofList, List.cons_append, List.append_assoc, List.nil_append, List.cons.injEq,
    true_and] at same
  obtain ⟨names, rest⟩ := inside same
  exact ⟨String.toList_inj.mp names, rest⟩

end TreeCalc.Text
