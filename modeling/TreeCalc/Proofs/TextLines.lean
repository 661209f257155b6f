import Mathlib.Data.List.Basic

namespace TreeCalc.Text

/-- Lines as one text, each of them ended by a newline. -/
def ofLines (lines : List String) : String := String.join (lines.map (· ++ "\n"))

@[simp] theorem toList_ofLines_nil : (ofLines []).toList = [] := rfl

theorem toList_ofLines_cons (line : String) (lines : List String) :
    (ofLines (line :: lines)).toList = line.toList ++ '\n' :: (ofLines lines).toList := by
  simp [ofLines, String.join_cons]

theorem ofLines_append (lines more : List String) : ofLines (lines ++ more) = ofLines lines ++ ofLines more := by
  simp [ofLines, String.join_append]

/-- What stands before the first mark and what stands after it can be told apart. -/
theorem eq_of_append_cons {α : Type} {mark : α} {left right : List α} (before : mark ∉ left) (free : mark ∉ right)
    {rest more : List α} (same : left ++ mark :: rest = right ++ mark :: more) : left = right ∧ rest = more := by
  induction left generalizing right with
  | nil =>
    cases right with
    | nil => exact ⟨rfl, (List.cons.inj same).2⟩
    | cons c right => exact absurd ((List.cons.inj same).1 ▸ List.mem_cons_self) free
  | cons c left ih =>
    cases right with
    | nil => exact absurd ((List.cons.inj same).1 ▸ List.mem_cons_self) before
    | cons d right =>
      obtain ⟨rfl, others⟩ := List.cons.inj same
      obtain ⟨rfl, equal⟩ := ih (List.not_mem_of_not_mem_cons before) (List.not_mem_of_not_mem_cons free) others
      exact ⟨rfl, equal⟩

/-- A text of lines can be cut back into its lines in one way only, if no line contains a newline. -/
theorem eq_of_ofLines_eq {lines others : List String} (plain : ∀ line ∈ lines, '\n' ∉ line.toList)
    (free : ∀ line ∈ others, '\n' ∉ line.toList) (same : ofLines lines = ofLines others) : lines = others := by
  replace same := congrArg String.toList same
  induction lines generalizing others with
  | nil =>
    cases others with
    | nil => rfl
    | cons other others => simp [toList_ofLines_cons] at same
  | cons line lines ih =>
    cases others with
    | nil => simp [toList_ofLines_cons] at same
    | cons other others =>
      rw [toList_ofLines_cons, toList_ofLines_cons] at same
      obtain ⟨first, rest⟩ := eq_of_append_cons (plain line List.mem_cons_self) (free other List.mem_cons_self) same
      have later := ih (fun l member => plain l (List.mem_cons_of_mem line member))
        (fun l member => free l (List.mem_cons_of_mem other member)) rest
      rw [String.toList_inj.mp first, later]

/-- There are as many newlines as lines. -/
theorem count_newline_ofLines {lines : List String} (plain : ∀ line ∈ lines, '\n' ∉ line.toList) :
    (ofLines lines).toList.count '\n' = lines.length := by
  induction lines with
  | nil => rfl
  | cons line lines ih =>
    have own := List.count_eq_zero.mpr (plain line List.mem_cons_self)
    have rest := ih fun l member => plain l (List.mem_cons_of_mem line member)
    rw [toList_ofLines_cons, List.count_append, List.count_cons_self, own, rest, List.length_cons, Nat.zero_add]

end TreeCalc.Text
