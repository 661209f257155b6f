import TreeCalc.Evaluation.Fuel
import TreeCalc.Machine

namespace TreeCalc

/-- From the task with the environment the machine comes, under every stack, to give a value there. -/
def Machine.Gives (task : Task) (env : Env) (x : Float) (after : Env) : Prop :=
  ∃ steps, ∀ fuel stack, Machine.run (fuel + steps) task stack env = Machine.run fuel (.give x) stack after

namespace Machine

/-- Binding parameters in the machine, given what the machine does with the arguments. -/
theorem run_bindParams {ev : Node → Env → Outcome}
    (gives : ∀ t env x after, ev t env = some (x, after) → Gives (.eval t) env x after) (d : Definition)
    (params : List String) (args : List Node) (saved : Saved) (env : Env) {bound : Saved} {after : Env}
    (binding : bindParams ev params args saved env = some (bound, after)) :
    ∃ steps, ∀ fuel stack, run (fuel + steps) (.bind d saved params args) stack env =
      run fuel (.eval d.body) (.finish d bound :: stack) after := by
  induction params generalizing args saved env with
  | nil =>
    obtain ⟨rfl, rfl⟩ := Prod.mk.inj (Option.some.inj binding)
    exact ⟨1, fun fuel stack => rfl⟩
  | cons p ps ih =>
    cases args with
    | nil =>
      obtain ⟨steps, rest⟩ := ih _ _ _ binding
      exact ⟨steps + 1, fun fuel stack => rest fuel stack⟩
    | cons a as =>
      simp only [bindParams, Option.bind_eq_bind, Option.bind_eq_some_iff] at binding
      obtain ⟨⟨x, middle⟩, argument, others⟩ := binding
      obtain ⟨first, evaluated⟩ := gives _ _ _ _ argument
      obtain ⟨second, rest⟩ := ih _ _ _ others
      refine ⟨second + 1 + first + 1, fun fuel stack => ?_⟩
      simp only [← Nat.add_assoc]
      have start := evaluated (fuel + second + 1) (.bind d (env.save saved p) p ps as :: stack)
      exact start.trans (rest fuel stack)

/-- A step that only looks at the operand's value. -/
theorem Gives.operand {t s : Node} {env middle after : Env} {x y : Float} {frame : Frame}
    (value : Gives (.eval t) env x middle)
    (enter : ∀ fuel stack, run (fuel + 1) (.eval s) stack env = run fuel (.eval t) (frame :: stack) env)
    (leave : ∀ fuel stack, run (fuel + 1) (.give x) (frame :: stack) middle = run fuel (.give y) stack after) :
    Gives (.eval s) env y after := by
  obtain ⟨steps, inside⟩ := value
  refine ⟨1 + steps + 1, fun fuel stack => ?_⟩
  simp only [← Nat.add_assoc]
  have entered := enter (fuel + 1 + steps) stack
  exact entered.trans ((inside (fuel + 1) (frame :: stack)).trans (leave fuel stack))

/-- An operator with two operands: the left one's value waits on the stack for the right one's. -/
theorem Gives.operands {l r s : Node} {env middle after : Env} {x y z : Float} {frame other : Frame}
    (left : Gives (.eval l) env x middle) (right : Gives (.eval r) middle y after)
    (enter : ∀ fuel stack, run (fuel + 1) (.eval s) stack env = run fuel (.eval l) (frame :: stack) env)
    (turn : ∀ fuel stack, run (fuel + 1) (.give x) (frame :: stack) middle =
      run fuel (.eval r) (other :: stack) middle)
    (leave : ∀ fuel stack, run (fuel + 1) (.give y) (other :: stack) after = run fuel (.give z) stack after) :
    Gives (.eval s) env z after := by
  obtain ⟨first, evaluated⟩ := left
  obtain ⟨second, rest⟩ := right
  refine ⟨1 + second + 1 + first + 1, fun fuel stack => ?_⟩
  simp only [← Nat.add_assoc]
  have entered := enter (fuel + 1 + second + 1 + first) stack
  have turned := turn (fuel + 1 + second) stack
  exact entered.trans ((evaluated (fuel + 1 + second + 1) (frame :: stack)).trans
    (turned.trans ((rest (fuel + 1) (other :: stack)).trans (leave fuel stack))))

/-- A node that goes on with another tree once it has the value of one. -/
theorem Gives.follow {t u s : Node} {env middle after : Env} {x y : Float} {frame : Frame}
    (value : Gives (.eval t) env x middle) (next : Gives (.eval u) middle y after)
    (enter : ∀ fuel stack, run (fuel + 1) (.eval s) stack env = run fuel (.eval t) (frame :: stack) env)
    (turn : ∀ fuel stack, run (fuel + 1) (.give x) (frame :: stack) middle = run fuel (.eval u) stack middle) :
    Gives (.eval s) env y after := by
  obtain ⟨first, evaluated⟩ := value
  obtain ⟨second, rest⟩ := next
  refine ⟨second + 1 + first + 1, fun fuel stack => ?_⟩
  simp only [← Nat.add_assoc]
  have entered := enter (fuel + second + 1 + first) stack
  exact entered.trans ((evaluated (fuel + second + 1) (frame :: stack)).trans
    ((turn (fuel + second) stack).trans (rest fuel stack)))

theorem gives_call {ev : Node → Env → Outcome}
    (gives : ∀ t env x after, ev t env = some (x, after) → Gives (.eval t) env x after) {name : String}
    {args : List Node} {env after : Env} {x : Float} (call : callWith ev name args env = some (x, after)) :
    Gives (.eval (.call name args)) env x after := by
  unfold callWith at call
  cases found : (env.openCall name).functions.get? name with
  | none =>
    simp only [found, Option.some.injEq, Prod.mk.injEq] at call
    obtain ⟨rfl, rfl⟩ := call
    exact ⟨1, fun fuel stack => by simp only [run, found]⟩
  | some d =>
    simp only [found, Option.bind_eq_bind, Option.bind_eq_some_iff, Option.some.injEq, Prod.mk.injEq] at call
    obtain ⟨⟨bound, middle⟩, binding, ⟨y, last⟩, body, rfl, rfl⟩ := call
    obtain ⟨first, bindings⟩ := run_bindParams gives d _ _ _ _ binding
    obtain ⟨second, rest⟩ := gives _ _ _ _ body
    refine ⟨1 + second + first + 1, fun fuel stack => ?_⟩
    have entered : run (fuel + (1 + second + first + 1)) (.eval (.call name args)) stack env =
        run (fuel + 1 + second + first) (.bind d [] d.params.names args) stack
          ((env.openCall name).beginCall d) := by
      have steps : fuel + (1 + second + first + 1) = fuel + 1 + second + first + 1 := by omega
      rw [steps]
      simp only [run, found]
    exact entered.trans ((bindings (fuel + 1 + second) stack).trans (rest (fuel + 1) (.finish d bound :: stack)))

/-- What evaluation yields, the machine gives. -/
theorem gives_of_eval {fuel : Nat} {t : Node} {env after : Env} {x : Float}
    (value : eval fuel t env = some (x, after)) : Gives (.eval t) env x after := by
  induction fuel generalizing t env x after with
  | zero => cases value
  | succ fuel ih =>
    rw [eval] at value
    cases t with
    | num y =>
      obtain ⟨rfl, rfl⟩ := Prod.mk.inj (Option.some.inj value)
      exact ⟨1, fun fuel stack => rfl⟩
    | var name =>
      obtain ⟨rfl, rfl⟩ := Prod.mk.inj (Option.some.inj value)
      exact ⟨1, fun fuel stack => rfl⟩
    | params names =>
      obtain ⟨rfl, rfl⟩ := Prod.mk.inj (Option.some.inj value)
      exact ⟨1, fun fuel stack => rfl⟩
    | define id name ps body =>
      obtain ⟨rfl, rfl⟩ := Prod.mk.inj (Option.some.inj value)
      exact ⟨1, fun fuel stack => rfl⟩
    | list head tail =>
      obtain ⟨steps, rest⟩ := ih value
      exact ⟨steps + 1, fun fuel stack => rest fuel stack⟩
    | call name args => exact gives_call (fun _ _ _ _ => ih) value
    | neg t =>
      simp only [evalWith, Option.bind_eq_bind, Option.bind_eq_some_iff, Option.some.injEq, Prod.mk.injEq] at value
      obtain ⟨⟨y, middle⟩, operand, rfl, rfl⟩ := value
      exact (ih operand).operand (fun _ _ => rfl) (fun _ _ => rfl)
    | unary f t =>
      simp only [evalWith, Option.bind_eq_bind, Option.bind_eq_some_iff, Option.some.injEq, Prod.mk.injEq] at value
      obtain ⟨⟨y, middle⟩, operand, rfl, rfl⟩ := value
      exact (ih operand).operand (fun _ _ => rfl) (fun _ _ => rfl)
    | assign name t =>
      simp only [evalWith, Option.bind_eq_bind, Option.bind_eq_some_iff, Option.some.injEq, Prod.mk.injEq] at value
      obtain ⟨⟨y, middle⟩, operand, rfl, rfl⟩ := value
      exact (ih operand).operand (fun _ _ => rfl) (fun _ _ => rfl)
    | arith op l r =>
      simp only [evalWith, Option.bind_eq_bind, Option.bind_eq_some_iff, Option.some.injEq, Prod.mk.injEq] at value
      obtain ⟨⟨y, middle⟩, left, ⟨z, last⟩, right, rfl, rfl⟩ := value
      exact (ih left).operands (ih right) (fun _ _ => rfl) (fun _ _ => rfl) (fun _ _ => rfl)
    | compare op l r =>
      simp only [evalWith, Option.bind_eq_bind, Option.bind_eq_some_iff, Option.some.injEq, Prod.mk.injEq] at value
      obtain ⟨⟨y, middle⟩, left, ⟨z, last⟩, right, rfl, rfl⟩ := value
      exact (ih left).operands (ih right) (fun _ _ => rfl) (fun _ _ => rfl) (fun _ _ => rfl)
    | binary f l r =>
      simp only [evalWith, Option.bind_eq_bind, Option.bind_eq_some_iff, Option.some.injEq, Prod.mk.injEq] at value
      obtain ⟨⟨y, middle⟩, left, ⟨z, last⟩, right, rfl, rfl⟩ := value
      exact (ih left).operands (ih right) (fun _ _ => rfl) (fun _ _ => rfl) (fun _ _ => rfl)
    | seq first second =>
      simp only [evalWith, Option.bind_eq_bind, Option.bind_eq_some_iff] at value
      obtain ⟨⟨y, middle⟩, left, right⟩ := value
      exact (ih left).follow (ih right) (fun _ _ => rfl) (fun _ _ => rfl)
    | cond test onTrue onFalse =>
      simp only [evalWith, Option.bind_eq_bind, Option.bind_eq_some_iff] at value
      obtain ⟨⟨y, middle⟩, tested, rest⟩ := value
      cases chosen : (if y != 0.0 then onTrue else onFalse) with
      | none =>
        simp only [chosen, Option.some.injEq, Prod.mk.injEq] at rest
        obtain ⟨rfl, rfl⟩ := rest
        exact (ih tested).operand (fun _ _ => rfl) (fun _ _ => by simp only [run, chosen])
      | some branch =>
        simp only [chosen] at rest
        exact (ih tested).follow (ih rest) (fun _ _ => rfl) (fun _ _ => by simp only [run, chosen])

/-- A run of the machine that ends, from the tree on, passes through the tree's value within `limit` steps. -/
def Passes (limit : Nat) (t : Node) (stack : List Frame) (env : Env) (r : Float × Env) : Prop :=
  ∃ fuel x after, eval fuel t env = some (x, after) ∧ ∃ rest, rest < limit ∧ run rest (.give x) stack after = some r

/-- A machine that still has a frame to serve has a step left. -/
theorem exists_succ_of_run {rest : Nat} {task : Task} {stack : List Frame} {env : Env} {r : Float × Env}
    (ends : run rest task stack env = some r) : ∃ fuel, rest = fuel + 1 := by
  cases rest with
  | zero => simp [run] at ends
  | succ fuel => exact ⟨fuel, rfl⟩

theorem bindParams_of_run {limit : Nat} {r : Float × Env}
    (passes : ∀ steps, steps < limit → ∀ t stack env, run steps (.eval t) stack env = some r →
      Passes steps t stack env r)
    (d : Definition) (params : List String) (args : List Node) (saved : Saved) (env : Env) {steps : Nat}
    {stack : List Frame} (within : steps ≤ limit)
    (ends : run steps (.bind d saved params args) stack env = some r) :
    ∃ fuel bound after, bindParams (eval fuel) params args saved env = some (bound, after) ∧
      ∃ rest, rest < steps ∧ run rest (.eval d.body) (.finish d bound :: stack) after = some r := by
  induction params generalizing args saved env steps with
  | nil =>
    obtain ⟨rest, rfl⟩ := exists_succ_of_run ends
    exact ⟨0, saved, env, rfl, rest, Nat.lt_succ_self rest, ends⟩
  | cons p ps ih =>
    obtain ⟨rest, rfl⟩ := exists_succ_of_run ends
    cases args with
    | nil =>
      obtain ⟨fuel, bound, after, binding, last, less, done⟩ := ih _ _ _ (Nat.le_of_succ_le within) ends
      exact ⟨fuel, bound, after, binding, last, Nat.lt_succ_of_lt less, done⟩
    | cons a as =>
      obtain ⟨fuel, x, middle, argument, left, before, given⟩ := passes rest within _ _ _ ends
      obtain ⟨steps, rfl⟩ := exists_succ_of_run given
      obtain ⟨other, bound, after, binding, last, less, done⟩ := ih as (env.save saved p) (middle.assign p x)
        (by omega : steps ≤ limit) given
      refine ⟨max fuel other, bound, after, ?_, last, by omega, done⟩
      simp only [bindParams, Option.bind_eq_bind, Option.bind_eq_some_iff]
      exact ⟨(x, middle), eval_mono (Nat.le_max_left _ _) _ _ _ argument,
        (eval_mono (Nat.le_max_right fuel other)).bindParams _ _ _ _ binding⟩

theorem Passes.operand {steps : Nat} {t s : Node} {stack : List Frame} {frame : Frame} {env : Env}
    {r : Float × Env} (inside : Passes steps t (frame :: stack) env r) (result : Float → Env → Float × Env)
    (value : ∀ fuel x after, eval fuel t env = some (x, after) → eval (fuel + 1) s env = some (result x after))
    (leave : ∀ fuel x after, run (fuel + 1) (.give x) (frame :: stack) after =
      run fuel (.give (result x after).1) stack (result x after).2) : Passes (steps + 1) s stack env r := by
  obtain ⟨fuel, x, after, evaluated, rest, less, given⟩ := inside
  obtain ⟨rest, rfl⟩ := exists_succ_of_run given
  rw [leave] at given
  exact ⟨fuel + 1, (result x after).1, (result x after).2, value _ _ _ evaluated, rest, by omega, given⟩

theorem Passes.operands {steps : Nat} {l r s : Node} {stack : List Frame} {frame : Frame} {env : Env}
    {out : Float × Env} (left : Passes steps l (frame :: stack) env out) (other : Float → Frame)
    (apply : Float → Float → Float)
    (passes : ∀ rest, rest < steps → ∀ t stack env, run rest (.eval t) stack env = some out →
      Passes rest t stack env out)
    (value : ∀ fuel x middle y after, eval fuel l env = some (x, middle) → eval fuel r middle = some (y, after) →
      eval (fuel + 1) s env = some (apply x y, after))
    (turn : ∀ fuel x middle, run (fuel + 1) (.give x) (frame :: stack) middle =
      run fuel (.eval r) (other x :: stack) middle)
    (leave : ∀ fuel x y after, run (fuel + 1) (.give y) (other x :: stack) after =
      run fuel (.give (apply x y)) stack after) : Passes (steps + 1) s stack env out := by
  obtain ⟨fuel, x, middle, first, rest, less, given⟩ := left
  obtain ⟨rest, rfl⟩ := exists_succ_of_run given
  rw [turn] at given
  obtain ⟨more, y, after, second, last, fewer, done⟩ := passes rest (by omega) _ _ _ given
  obtain ⟨last, rfl⟩ := exists_succ_of_run done
  rw [leave] at done
  refine ⟨max fuel more + 1, apply x y, after, value _ x middle y after ?_ ?_, last, by omega, done⟩
  · exact eval_mono (Nat.le_max_left _ _) _ _ _ first
  · exact eval_mono (Nat.le_max_right _ _) _ _ _ second

theorem passes_call {limit : Nat} {r : Float × Env}
    (passes : ∀ steps, steps < limit → ∀ t stack env, run steps (.eval t) stack env = some r →
      Passes steps t stack env r)
    {name : String} {args : List Node} {stack : List Frame} {env : Env}
    (ends : run limit (.eval (.call name args)) stack env = some r) :
    Passes limit (.call name args) stack env r := by
  obtain ⟨rest, rfl⟩ := exists_succ_of_run ends
  simp only [run] at ends
  cases found : (env.openCall name).functions.get? name with
  | none =>
    simp only [found] at ends
    exact ⟨1, 0.0, (env.openCall name).rejectCall, by simp only [eval, evalWith, callWith, found], rest,
      Nat.lt_succ_self rest, ends⟩
  | some d =>
    simp only [found] at ends
    obtain ⟨fuel, bound, middle, binding, left, before, started⟩ :=
      bindParams_of_run passes d _ _ _ _ (Nat.le_succ rest) ends
    obtain ⟨more, x, after, body, last, less, done⟩ := passes left (by omega) _ _ _ started
    obtain ⟨last, rfl⟩ := exists_succ_of_run done
    refine ⟨max fuel more + 1, x, after.endCall d bound x, ?_, last, by omega, done⟩
    simp only [eval, evalWith, callWith, found, Option.bind_eq_bind, Option.bind_eq_some_iff]
    exact ⟨(bound, middle), (eval_mono (Nat.le_max_left fuel more)).bindParams _ _ _ _ binding, (x, after),
      eval_mono (Nat.le_max_right fuel more) _ _ _ body, rfl⟩

/-- A run of the machine that ends passes through the value of the tree it starts with. -/
theorem passes_of_run (steps : Nat) (t : Node) (stack : List Frame) (env : Env) {r : Float × Env}
    (ends : run steps (.eval t) stack env = some r) : Passes steps t stack env r := by
  induction steps using Nat.strongRecOn generalizing t stack env with
  | ind steps ih =>
    obtain ⟨steps, rfl⟩ := exists_succ_of_run ends
    have inner : ∀ rest, rest < steps → ∀ t stack env, run rest (.eval t) stack env = some r →
        Passes rest t stack env r := fun rest less t stack env => ih rest (by omega) t stack env
    have next := fun t stack env => ih steps (Nat.lt_succ_self steps) t stack env
    cases t with
    | num x => exact ⟨1, x, env, rfl, steps, Nat.lt_succ_self steps, ends⟩
    | var name => exact ⟨1, env.read name, env, rfl, steps, Nat.lt_succ_self steps, ends⟩
    | params names => exact ⟨1, 0.0, env, rfl, steps, Nat.lt_succ_self steps, ends⟩
    | define id name ps body => exact ⟨1, 0.0, _, rfl, steps, Nat.lt_succ_self steps, ends⟩
    | list head tail =>
      obtain ⟨fuel, x, after, value, rest, less, given⟩ := next _ _ _ ends
      exact ⟨fuel + 1, x, after, value, rest, by omega, given⟩
    | call name args => exact passes_call ih ends
    | neg t =>
      exact (next _ _ _ ends).operand (fun x after => (-x, after))
        (fun _ _ _ value => by simp only [eval, evalWith, value]; rfl) (fun _ _ _ => rfl)
    | unary f t =>
      exact (next _ _ _ ends).operand
        (fun x after => (f.apply x, if f = .display then after.display x else after))
        (fun _ _ _ value => by simp only [eval, evalWith, value]; rfl) (fun _ _ _ => rfl)
    | assign name t =>
      exact (next _ _ _ ends).operand (fun x after => (x, after.assign name x))
        (fun _ _ _ value => by simp only [eval, evalWith, value]; rfl) (fun _ _ _ => rfl)
    | arith op left right =>
      exact (next _ _ _ ends).operands (.arithRight op) op.apply inner
        (fun _ _ _ _ _ first second => by simp only [eval, evalWith, first]; simp [second])
        (fun _ _ _ => rfl) (fun _ _ _ _ => rfl)
    | compare op left right =>
      exact (next _ _ _ ends).operands (.compareRight op) op.apply inner
        (fun _ _ _ _ _ first second => by simp only [eval, evalWith, first]; simp [second])
        (fun _ _ _ => rfl) (fun _ _ _ _ => rfl)
    | binary f left right =>
      exact (next _ _ _ ends).operands (.binaryRight f) f.apply inner
        (fun _ _ _ _ _ first second => by simp only [eval, evalWith, first]; simp [second])
        (fun _ _ _ => rfl) (fun _ _ _ _ => rfl)
    | seq first second =>
      obtain ⟨fuel, x, middle, value, rest, less, given⟩ := next _ _ _ ends
      obtain ⟨rest, rfl⟩ := exists_succ_of_run given
      obtain ⟨more, y, after, last, left, fewer, done⟩ := inner rest (by omega) _ _ _ given
      refine ⟨max fuel more + 1, y, after, ?_, left, by omega, done⟩
      simp only [eval, evalWith, Option.bind_eq_bind, Option.bind_eq_some_iff]
      exact ⟨(x, middle), eval_mono (Nat.le_max_left _ _) _ _ _ value,
        eval_mono (Nat.le_max_right fuel more) _ _ _ last⟩
    | cond test onTrue onFalse =>
      obtain ⟨fuel, x, middle, value, rest, less, given⟩ := next _ _ _ ends
      obtain ⟨rest, rfl⟩ := exists_succ_of_run given
      simp only [run] at given
      cases chosen : (if x != 0.0 then onTrue else onFalse) with
      | none =>
        simp only [chosen] at given
        refine ⟨fuel + 1, 0.0, middle, ?_, rest, by omega, given⟩
        simp only [eval, evalWith, value, Option.bind_eq_bind, Option.bind_some, chosen]
      | some branch =>
        simp only [chosen] at given
        obtain ⟨more, y, after, last, left, fewer, done⟩ := inner rest (by omega) _ _ _ given
        refine ⟨max fuel more + 1, y, after, ?_, left, by omega, done⟩
        simp only [eval, evalWith, Option.bind_eq_bind, Option.bind_eq_some_iff]
        refine ⟨(x, middle), eval_mono (Nat.le_max_left _ _) _ _ _ value, ?_⟩
        simp only [chosen]
        exact eval_mono (Nat.le_max_right fuel more) _ _ _ last

end Machine

/-- The machine and the evaluator come to the same results. -/
theorem Node.exists_evaluate_iff (t : Node) (env : Env) (r : Float × Env) :
    (∃ fuel, t.evaluate fuel env = some r) ↔ ∃ fuel, eval fuel t env = some r := by
  constructor
  · rintro ⟨steps, ends⟩
    obtain ⟨fuel, x, after, value, rest, _, given⟩ := Machine.passes_of_run steps t [] env ends
    obtain ⟨rest, rfl⟩ := Machine.exists_succ_of_run given
    exact ⟨fuel, value.trans given⟩
  · rintro ⟨fuel, value⟩
    obtain ⟨x, after⟩ := r
    obtain ⟨steps, gives⟩ := Machine.gives_of_eval value
    exact ⟨1 + steps, gives 1 []⟩

end TreeCalc
