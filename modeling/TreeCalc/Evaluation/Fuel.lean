import TreeCalc.Evaluation

namespace TreeCalc

/-- One evaluator extends another when it agrees with every result that the other has. -/
def Extends (f g : Node → Env → Outcome) : Prop := ∀ t env r, f t env = some r → g t env = some r

theorem Extends.bindParams {f g : Node → Env → Outcome} (more : Extends f g) (params : List String)
    (args : List Node) (saved : Saved) (env : Env) {r : Saved × Env}
    (run : bindParams f params args saved env = some r) : bindParams g params args saved env = some r := by
  induction params generalizing args saved env with
  | nil => exact run
  | cons p ps ih =>
    cases args with
    | nil => exact ih _ _ _ run
    | cons a as =>
      simp only [TreeCalc.bindParams, Option.bind_eq_bind, Option.bind_eq_some_iff] at run ⊢
      obtain ⟨value, argument, rest⟩ := run
      exact ⟨value, more _ _ _ argument, ih _ _ _ rest⟩

theorem Extends.callWith {f g : Node → Env → Outcome} (more : Extends f g) {name : String} {args : List Node}
    {env : Env} {r : Float × Env} (run : callWith f name args env = some r) :
    callWith g name args env = some r := by
  unfold TreeCalc.callWith at run ⊢
  cases found : (env.openCall name).functions.get? name with
  | none => simpa only [found] using run
  | some d =>
    simp only [found, Option.bind_eq_bind, Option.bind_eq_some_iff] at run ⊢
    obtain ⟨bound, binding, value, body, rest⟩ := run
    exact ⟨bound, more.bindParams _ _ _ _ binding, value, more _ _ _ body, rest⟩

theorem Extends.evalWith {f g : Node → Env → Outcome} (more : Extends f g) :
    Extends (evalWith f) (evalWith g) := by
  intro t env r run
  cases t with
  | num | var | params | define => exact run
  | list head tail => exact more _ _ _ run
  | call name args => exact more.callWith run
  | neg | unary | assign =>
    simp only [TreeCalc.evalWith, Option.bind_eq_bind, Option.bind_eq_some_iff] at run ⊢
    obtain ⟨value, operand, rest⟩ := run
    exact ⟨value, more _ _ _ operand, rest⟩
  | arith | compare | binary =>
    simp only [TreeCalc.evalWith, Option.bind_eq_bind, Option.bind_eq_some_iff] at run ⊢
    obtain ⟨x, left, y, right, rest⟩ := run
    exact ⟨x, more _ _ _ left, y, more _ _ _ right, rest⟩
  | seq first second =>
    simp only [TreeCalc.evalWith, Option.bind_eq_bind, Option.bind_eq_some_iff] at run ⊢
    obtain ⟨x, left, right⟩ := run
    exact ⟨x, more _ _ _ left, more _ _ _ right⟩
  | cond test onTrue onFalse =>
    simp only [TreeCalc.evalWith, Option.bind_eq_bind, Option.bind_eq_some_iff] at run ⊢
    obtain ⟨x, tested, rest⟩ := run
    refine ⟨x, more _ _ _ tested, ?_⟩
    split at rest
    · exact rest
    · exact more _ _ _ rest

theorem eval_succ (fuel : Nat) : Extends (eval fuel) (eval (fuel + 1)) := by
  induction fuel with
  | zero => intro t env r run; cases run
  | succ fuel ih => exact ih.evalWith

/-- More fuel keeps a result. -/
theorem eval_mono {fuel more : Nat} (le : fuel ≤ more) : Extends (eval fuel) (eval more) := by
  induction le with
  | refl => exact fun _ _ _ run => run
  | step _ ih => exact fun t env r run => eval_succ _ t env r (ih t env r run)

/-- A tree has one result at most. -/
theorem eval_unique {fuel other : Nat} {t : Node} {env : Env} {r s : Float × Env}
    (run : eval fuel t env = some r) (again : eval other t env = some s) : r = s := by
  have left := eval_mono (Nat.le_max_left fuel other) t env r run
  have right := eval_mono (Nat.le_max_right fuel other) t env s again
  exact Option.some.inj (left.symm.trans right)

end TreeCalc
