import TreeCalc.Text.Blank

namespace TreeCalc.Text
variable {separator : Char → Bool}

/-- A text cut into its maximal runs: a gap of separators, then a run that is as long as it can be, and so on,
with a gap at the end. The first gap and the last one may be empty. -/
inductive Cut (separator : Char → Bool) : List Char → List (List Char) → Prop
  | nil {gap : List Char} (blank : ∀ c ∈ gap, separator c = true) : Cut separator gap []
  | cons {gap run rest : List Char} {others : List (List Char)} (blank : ∀ c ∈ gap, separator c = true)
      (nonempty : run ≠ []) (plain : ∀ c ∈ run, separator c = false)
      (ends : ∀ c ∈ rest.head?, separator c = true) (later : Cut separator rest others) :
      Cut separator (gap ++ (run ++ rest)) (run :: others)

theorem runs_nil : runs separator [] = [] := by simp [runs]

/-- At a separator the runs of a text fall apart. -/
theorem runs_append_separator {c : Char} (divides : separator c = true) (front back : List Char) :
    runs separator (front ++ c :: back) = runs separator front ++ runs separator back := by
  unfold runs
  rw [List.splitOnP_append_cons front back divides, List.filter_append]

theorem runs_cons_separator {c : Char} (divides : separator c = true) (text : List Char) :
    runs separator (c :: text) = runs separator text := by
  have apart := runs_append_separator divides [] text
  rwa [runs_nil, List.nil_append, List.nil_append] at apart

theorem runs_gap_append {gap : List Char} (blank : ∀ c ∈ gap, separator c = true) (text : List Char) :
    runs separator (gap ++ text) = runs separator text := by
  induction gap with
  | nil => rfl
  | cons c gap ih =>
    have first : separator c = true := blank c List.mem_cons_self
    have others : ∀ c ∈ gap, separator c = true := fun c member => blank c (List.mem_cons_of_mem _ member)
    rw [List.cons_append, runs_cons_separator first, ih others]

/-- A gap takes a text apart into the runs before it and those behind it. -/
theorem runs_append_gap {gap : List Char} (blank : ∀ c ∈ gap, separator c = true) (nonempty : gap ≠ [])
    (front back : List Char) :
    runs separator (front ++ gap ++ back) = runs separator front ++ runs separator back := by
  obtain ⟨c, gap, rfl⟩ := List.exists_cons_of_ne_nil nonempty
  obtain ⟨divides, others⟩ := List.forall_mem_cons.mp blank
  rw [List.append_assoc, List.cons_append, runs_append_separator divides, runs_gap_append others]

/-- A gap at the end adds no run. -/
theorem runs_text_append_gap {gap : List Char} (blank : ∀ c ∈ gap, separator c = true) (text : List Char) :
    runs separator (text ++ gap) = runs separator text := by
  by_cases empty : gap = []
  · rw [empty, List.append_nil]
  · have apart := runs_append_gap blank empty text []
    rwa [List.append_nil, runs_nil, List.append_nil] at apart

theorem runs_of_plain {run : List Char} (nonempty : run ≠ []) (plain : ∀ c ∈ run, separator c = false) :
    runs separator run = [run] := by
  unfold runs
  rw [List.splitOnP_eq_singleton plain]
  simp [nonempty]

theorem runs_plain_append {run rest : List Char} (nonempty : run ≠ []) (plain : ∀ c ∈ run, separator c = false)
    (ends : ∀ c ∈ rest.head?, separator c = true) : runs separator (run ++ rest) = run :: runs separator rest := by
  cases rest with
  | nil => rw [List.append_nil, runs_of_plain nonempty plain, runs_nil]
  | cons c rest =>
    have divides : separator c = true := ends c rfl
    rw [runs_append_separator divides, runs_of_plain nonempty plain, runs_cons_separator divides,
      List.singleton_append]

theorem Cut.runs_eq {text : List Char} {cut : List (List Char)} (cuts : Cut separator text cut) :
    runs separator text = cut := by
  induction cuts with
  | @nil gap blank =>
    have all := runs_gap_append blank []
    rwa [List.append_nil, runs_nil] at all
  | cons blank nonempty plain ends _ ih =>
    rw [runs_gap_append blank, runs_plain_append nonempty plain ends, ih]

theorem exists_cut (text : List Char) : ∃ cut, Cut separator text cut := by
  induction text with
  | nil => exact ⟨[], .nil nofun⟩
  | cons c text ih =>
    obtain ⟨cut, cuts⟩ := ih
    cases divides : separator c with
    | true =>
      -- One more separator makes the first gap longer.
      cases cuts with
      | nil blank => exact ⟨[], .nil (List.forall_mem_cons.mpr ⟨divides, blank⟩)⟩
      | cons blank nonempty plain ends later =>
        exact ⟨_, .cons (List.forall_mem_cons.mpr ⟨divides, blank⟩) nonempty plain ends later⟩
    | false =>
      by_cases ends : ∀ d ∈ text.head?, separator d = true
      · have alone : ∀ d ∈ [c], separator d = false := by simp [divides]
        have whole : Cut separator ([] ++ ([c] ++ text)) ([c] :: cut) :=
          .cons nofun (List.cons_ne_nil c []) alone ends cuts
        exact ⟨_, whole⟩
      · -- The text goes on with a run, which the character makes longer.
        cases cuts with
        | nil blank => exact absurd (fun d first => blank d (List.mem_of_mem_head? first)) ends
        | @cons gap run rest others blank nonempty plain last later =>
          cases gap with
          | nil =>
            have longer : ∀ d ∈ c :: run, separator d = false := List.forall_mem_cons.mpr ⟨divides, plain⟩
            have whole : Cut separator ([] ++ (c :: run ++ rest)) ((c :: run) :: others) :=
              .cons nofun (List.cons_ne_nil c run) longer last later
            exact ⟨_, whole⟩
          | cons d gap =>
            have first : separator d = true := blank d List.mem_cons_self
            exact absurd (fun e same => Option.some.inj same ▸ first) ends

/-- The runs are the one way to cut a text so. -/
theorem cut_iff {text : List Char} {cut : List (List Char)} :
    Cut separator text cut ↔ cut = runs separator text := by
  constructor
  · exact fun cuts => cuts.runs_eq.symm
  · rintro rfl
    obtain ⟨cut, cuts⟩ : ∃ cut, Cut separator text cut := exists_cut text
    exact cuts.runs_eq ▸ cuts

theorem forall_bne {mark : Char} {text : List Char} (missing : mark ∉ text) : ∀ c ∈ text, (c != mark) = true := by
  intro c member
  exact bne_iff_ne.mpr fun same => missing (same ▸ member)

/-- What stands before the first mark, and what is left from there on. -/
theorem takeWhile_mark {mark : Char} {front : List Char} (first : mark ∉ front) (back : List Char) :
    (front ++ mark :: back).takeWhile (· != mark) = front := by
  rw [List.takeWhile_append_of_pos (forall_bne first)]
  simp

theorem dropWhile_mark {mark : Char} {front : List Char} (first : mark ∉ front) (back : List Char) :
    (front ++ mark :: back).dropWhile (· != mark) = mark :: back := by
  rw [List.dropWhile_append_of_pos (forall_bne first)]
  simp

end TreeCalc.Text
