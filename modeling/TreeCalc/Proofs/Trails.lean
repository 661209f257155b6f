import TreeCalc.Proofs.MachineSteps

namespace TreeCalc

namespace Machine
variable {α β : Type} {mark : Config → List α} {change : β → α → β}

/-- What is written down, in order, of the steps of a run of at most `fuel` steps, `mark` being what is written down
of the step that the machine is about to do. -/
def trail (mark : Config → List α) : Nat → Config → List α
  | 0, _ => []
  | fuel + 1, c =>
    match step c with
    | none => []
    | some next => mark c ++ trail mark fuel next

theorem trail_of_step {c next : Config} (one : step c = some next) (fuel : Nat) :
    trail mark (fuel + 1) c = mark c ++ trail mark fuel next := by
  simp only [trail, one]

theorem trail_of_ended {c : Config} (ended : step c = none) (fuel : Nat) : trail mark (fuel + 1) c = [] := by
  simp only [trail, ended]

/-- What every configuration with an invariant has of its mark, the trail from such a configuration has as a
whole. -/
theorem forall_trail {P : Config → Prop} {Q : α → Prop} (kept : ∀ c next, P c → step c = some next → P next)
    (marked : ∀ c, P c → ∀ a ∈ mark c, Q a) {fuel : Nat} {c : Config} (start : P c) :
    ∀ a ∈ trail mark fuel c, Q a := by
  induction fuel generalizing c with
  | zero => simp [trail]
  | succ fuel ih =>
    cases one : step c with
    | none => simp [trail_of_ended one]
    | some next =>
      intro a member
      rw [trail_of_step one] at member
      rcases List.mem_append.mp member with here | later
      · exact marked c start a here
      · exact ih (kept c next start one) a later

/-- A view of the machine that every step changes as its mark says, as long as an invariant holds which the steps
keep, is changed by a run as the whole trail says. -/
theorem run_follows_of {P : Config → Prop} (view : Config → β) (kept : ∀ c next, P c → step c = some next → P next)
    (follows : ∀ c next, P c → step c = some next → view next = (mark c).foldl change (view c)) {fuel : Nat}
    {c : Config} {x : Float} {after : Env} (start : P c) (ends : run fuel c.task c.stack c.env = some (x, after)) :
    P ⟨.give x, [], after⟩ ∧ view ⟨.give x, [], after⟩ = (trail mark fuel c).foldl change (view c) := by
  induction fuel generalizing c with
  | zero => simp [run] at ends
  | succ fuel ih =>
    cases one : step c with
    | none =>
      -- Nothing is left to do, so that the run ends with the environment it has.
      obtain ⟨y, task, stack⟩ := step_eq_none one
      rw [trail_of_ended one]
      obtain ⟨_, _, env⟩ := c
      subst task stack
      cases Option.some.inj ends
      exact ⟨start, rfl⟩
    | some next =>
      rw [run_of_step one] at ends
      obtain ⟨final, changed⟩ := ih (kept c next start one) ends
      rw [trail_of_step one, List.foldl_append, ← follows c next start one]
      exact ⟨final, changed⟩

theorem run_follows {view : Env → β}
    (follows : ∀ c next, step c = some next → view next.env = (mark c).foldl change (view c.env)) {fuel : Nat}
    {c : Config} {x : Float} {after : Env} (ends : run fuel c.task c.stack c.env = some (x, after)) :
    view after = (trail mark fuel c).foldl change (view c.env) :=
  (run_follows_of (P := fun _ => True) (fun c => view c.env) (fun _ _ _ _ => trivial)
    (fun c next _ one => follows c next one) trivial ends).2

end Machine

/-- What is written down while a tree is evaluated. -/
def Node.trail {α : Type} (mark : Machine.Config → List α) (t : Node) (fuel : Nat) (env : Env) : List α :=
  Machine.trail mark fuel ⟨.eval t, [], env⟩

end TreeCalc
