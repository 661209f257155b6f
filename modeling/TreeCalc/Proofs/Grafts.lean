import TreeCalc.Node.Graft
import TreeCalc.Proofs.OwnedNodes

namespace TreeCalc.Node

/-- The trees of a list after one of them has grown. -/
def Regrown (inner : Node) (hole : String) (ts us : List Node) : Prop :=
  ∃ before t after u, ts = before ++ t :: after ∧ us = before ++ u :: after ∧ inner.graftInto hole t = some u

variable {inner t u : Node} {hole : String} {ts us : List Node}

namespace Regrown

theorem here (filled : inner.graftInto hole t = some u) (after : List Node) :
    Regrown inner hole (t :: after) (u :: after) :=
  ⟨[], t, after, u, rfl, rfl, filled⟩

theorem append_left (regrown : Regrown inner hole ts us) (front : List Node) :
    Regrown inner hole (front ++ ts) (front ++ us) := by
  obtain ⟨before, t, after, u, rfl, rfl, filled⟩ := regrown
  exact ⟨front ++ before, t, after, u, by simp, by simp, filled⟩

theorem append_right (regrown : Regrown inner hole ts us) (rest : List Node) :
    Regrown inner hole (ts ++ rest) (us ++ rest) := by
  obtain ⟨before, t, after, u, rfl, rfl, filled⟩ := regrown
  exact ⟨before, t, after ++ rest, u, by simp, by simp, filled⟩

end Regrown

theorem regrown_all (filled : inner.graftIntoAll hole ts = some us) : Regrown inner hole ts us := by
  induction ts generalizing us with
  | nil => cases filled
  | cons t ts ih =>
    rw [graftIntoAll] at filled
    rcases Option.or_eq_some_iff.mp filled with first | ⟨-, later⟩
    · obtain ⟨u, grown, rfl⟩ := Option.map_eq_some_iff.mp first
      exact .here grown ts
    · obtain ⟨others, grown, rfl⟩ := Option.map_eq_some_iff.mp later
      exact (ih grown).append_left [t]

theorem regrown_branch {branch grown : Option Node} (filled : inner.graftIntoBranch hole branch = some grown) :
    Regrown inner hole branch.toList grown.toList := by
  cases branch with
  | none => cases filled
  | some t =>
    obtain ⟨u, grown, rfl⟩ := Option.map_eq_some_iff.mp filled
    exact .here grown []

/-- A tree that grows is the variable itself, or one of its parts grows. -/
theorem graftInto_cases (filled : inner.graftInto hole t = some u) :
    (t = .var hole ∧ u = inner) ∨
      t.definition? = none ∧ u.definition? = none ∧ Regrown inner hole t.parts u.parts := by
  cases t with
  | num | params | define => cases filled
  | var x =>
    simp only [graftInto] at filled
    split at filled
    · next same => exact Or.inl ⟨congrArg var same, (Option.some.inj filled).symm⟩
    · cases filled
  | neg t | unary f t | assign x t =>
    obtain ⟨s, grown, rfl⟩ := Option.map_eq_some_iff.mp filled
    exact Or.inr ⟨rfl, rfl, .here grown []⟩
  | arith op l r | compare op l r | binary op l r | seq l r =>
    rcases Option.or_eq_some_iff.mp filled with first | ⟨-, second⟩
    · obtain ⟨s, grown, rfl⟩ := Option.map_eq_some_iff.mp first
      exact Or.inr ⟨rfl, rfl, .here grown [r]⟩
    · obtain ⟨s, grown, rfl⟩ := Option.map_eq_some_iff.mp second
      exact Or.inr ⟨rfl, rfl, (Regrown.here grown []).append_left [l]⟩
  | list t ts =>
    rcases Option.or_eq_some_iff.mp filled with first | ⟨-, later⟩
    · obtain ⟨s, grown, rfl⟩ := Option.map_eq_some_iff.mp first
      exact Or.inr ⟨rfl, rfl, .here grown ts⟩
    · obtain ⟨us, grown, rfl⟩ := Option.map_eq_some_iff.mp later
      exact Or.inr ⟨rfl, rfl, (regrown_all grown).append_left [t]⟩
  | cond t onTrue onFalse =>
    rcases Option.or_eq_some_iff.mp filled with test | ⟨-, branches⟩
    · obtain ⟨s, grown, rfl⟩ := Option.map_eq_some_iff.mp test
      exact Or.inr ⟨rfl, rfl, .here grown (onTrue.toList ++ onFalse.toList)⟩
    · rcases Option.or_eq_some_iff.mp branches with yes | ⟨-, no⟩
      · obtain ⟨branch, grown, rfl⟩ := Option.map_eq_some_iff.mp yes
        exact Or.inr ⟨rfl, rfl, ((regrown_branch grown).append_right onFalse.toList).append_left [t]⟩
      · obtain ⟨branch, grown, rfl⟩ := Option.map_eq_some_iff.mp no
        exact Or.inr ⟨rfl, rfl, ((regrown_branch grown).append_left onTrue.toList).append_left [t]⟩
  | call f ts =>
    obtain ⟨us, grown, rfl⟩ := Option.map_eq_some_iff.mp filled
    exact Or.inr ⟨rfl, rfl, regrown_all grown⟩

/-- A tree that has grown makes the definitions that it made and those of what it grew by. -/
theorem made_graftInto (filled : inner.graftInto hole t = some u) : u.made.Perm (inner.made ++ t.made) := by
  induction t using induct_children generalizing u with
  | step t ih =>
    rcases graftInto_cases filled with
      ⟨rfl, rfl⟩ | ⟨plain, grownPlain, before, part, after, grown, parts, now, inside⟩
    · rw [made, List.append_nil]
    · have member : part ∈ t.parts := by simp [parts]
      have more := ih part (mem_children_of_part member) inside
      have flat : ∀ part, (before ++ part :: after).reverse.flatMap made =
          after.reverse.flatMap made ++ (part.made ++ before.reverse.flatMap made) := by
        intro part
        simp
      rw [made_eq u, made_eq t, plain, grownPlain, parts, now, flat, flat]
      have grew := (more.append_right (before.reverse.flatMap made)).append_left (after.reverse.flatMap made)
      rw [List.append_assoc] at grew
      exact grew.trans (List.perm_append_comm_assoc _ _ _)

end TreeCalc.Node
