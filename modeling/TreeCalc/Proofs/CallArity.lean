import Mathlib.Data.List.Forall2
import TreeCalc.Proofs.Acts
import TreeCalc.Proofs.Rules

namespace TreeCalc

/-- Arguments brought to a number: those beyond it are left out, and zeros stand for those that are missing. -/
def Node.fitArgs (count : Nat) (args : List Node) : List Node :=
  args.take count ++ List.replicate (count - args.length) (.num 0.0)

theorem Node.length_fitArgs (count : Nat) (args : List Node) : (fitArgs count args).length = count := by
  rw [fitArgs, List.length_append, List.length_take, List.length_replicate]
  omega

namespace Derives

variable {saved bound : Saved} {env after : Env}

theorem params_nil_iff {args : List Node} :
    Derives (.params [] args saved bound) env after ↔ bound = saved ∧ after = env := by
  constructor
  · intro run
    cases run
    exact ⟨rfl, rfl⟩
  · rintro ⟨rfl, rfl⟩
    exact .done

/-- Binding parameters needs one argument for each, and zero for the ones that are missing. -/
theorem params_fitArgs_iff (names : List String) (args : List Node) :
    Derives (.params names args saved bound) env after ↔
      Derives (.params names (Node.fitArgs names.length args) saved bound) env after := by
  induction names generalizing args saved env with
  | nil => rw [params_nil_iff, params_nil_iff]
  | cons p names ih =>
    cases args with
    | nil =>
      -- The zero that is put there is evaluated, which neither takes nor leaves anything.
      have zero : Node.fitArgs (p :: names).length [] = .num 0.0 :: Node.fitArgs names.length [] := by
        simp [Node.fitArgs, List.replicate_succ]
      rw [zero]
      constructor
      · intro run
        cases run with
        | missing rest => exact .argument .num ((ih []).mp rest)
      · intro run
        cases run with
        | argument first rest =>
          cases first
          exact .missing ((ih []).mpr rest)
    | cons a args =>
      have next : Node.fitArgs (p :: names).length (a :: args) = a :: Node.fitArgs names.length args := by
        simp [Node.fitArgs]
      rw [next]
      constructor
      · intro run
        cases run with
        | argument first rest => exact .argument first ((ih args).mp rest)
      · intro run
        cases run with
        | argument first rest => exact .argument first ((ih args).mpr rest)

/-- A call of a registered function is a call with one argument for each parameter. -/
theorem call_fitArgs_iff {name : String} {args : List Node} {d : Definition} {x : Float}
    (found : env.functions.get? name = some d) :
    Derives (.tree (.call name args) x) env after ↔
      Derives (.tree (.call name (Node.fitArgs d.params.size args)) x) env after := by
  constructor
  · intro run
    cases run with
    | unknown missing => cases missing.symm.trans found
    | call registered binding body =>
      cases Option.some.inj (registered.symm.trans found)
      exact .call found ((params_fitArgs_iff _ args).mp binding) body
  · intro run
    cases run with
    | unknown missing => cases missing.symm.trans found
    | call registered binding body =>
      cases Option.some.inj (registered.symm.trans found)
      exact .call found ((params_fitArgs_iff _ args).mpr binding) body

end Derives

/-! Arguments beyond the last parameter stay where they are until the call is left. -/

/-- Two tasks that differ at most in arguments for which there is no parameter. -/
inductive Task.NeedsSame : Task → Task → Prop
  | same {task} : NeedsSame task task
  | bind {d saved params args others} : args.take params.length = others.take params.length →
      NeedsSame (.bind d saved params args) (.bind d saved params others)

inductive Frame.NeedsSame : Frame → Frame → Prop
  | same {frame} : NeedsSame frame frame
  | bind {d saved p params args others} : args.take params.length = others.take params.length →
      NeedsSame (.bind d saved p params args) (.bind d saved p params others)

theorem Task.NeedsSame.held {task again : Task} (same : task.NeedsSame again) : task.held = again.held := by
  cases same <;> rfl

theorem Frame.NeedsSame.held {stack waiting : List Frame} (frames : List.Forall₂ Frame.NeedsSame stack waiting) :
    stack.flatMap Frame.held = waiting.flatMap Frame.held := by
  induction frames with
  | nil => rfl
  | cons first _ ih =>
    rw [List.flatMap_cons, List.flatMap_cons, ih]
    cases first <;> rfl

namespace Machine

/-- Two configurations that differ at most in arguments for which there is no parameter. -/
structure Config.NeedsSame (c d : Config) : Prop where
  task : c.task.NeedsSame d.task
  stack : List.Forall₂ Frame.NeedsSame c.stack d.stack
  env : c.env = d.env

variable {stack waiting : List Frame}

theorem enter_needsSame (frames : List.Forall₂ Frame.NeedsSame stack waiting) (t : Node) (env : Env) :
    (enter t stack env).NeedsSame (enter t waiting env) := by
  cases t with
  | num | var | list | params | define => exact ⟨.same, frames, rfl⟩
  | call name args =>
    simp only [enter]
    split <;> exact ⟨.same, frames, rfl⟩
  | _ => exact ⟨.same, .cons .same frames, rfl⟩

theorem resume_needsSame (frames : List.Forall₂ Frame.NeedsSame stack waiting) (x : Float) {frame again : Frame}
    (same : frame.NeedsSame again) (env : Env) :
    (resume x frame stack env).NeedsSame (resume x again waiting env) := by
  cases same with
  | bind needed => exact ⟨.bind needed, frames, rfl⟩
  | same =>
    cases frame with
    | arithLeft | compareLeft | binaryLeft => exact ⟨.same, .cons .same frames, rfl⟩
    | cond onTrue onFalse =>
      simp only [resume]
      split <;> exact ⟨.same, frames, rfl⟩
    | _ => exact ⟨.same, frames, rfl⟩

theorem bind_needsSame (frames : List.Forall₂ Frame.NeedsSame stack waiting) {args others : List Node}
    (params : List String) (needed : args.take params.length = others.take params.length) (d : Definition)
    (saved : Saved) (env : Env) :
    Option.Rel Config.NeedsSame (step ⟨.bind d saved params args, stack, env⟩)
      (step ⟨.bind d saved params others, waiting, env⟩) := by
  cases params with
  | nil => exact .some ⟨.same, .cons .same frames, rfl⟩
  | cons p params =>
    cases args with
    | nil =>
      cases others with
      | nil => exact .some ⟨.same, frames, rfl⟩
      | cons b others => cases needed
    | cons a args =>
      cases others with
      | nil => cases needed
      | cons b others =>
        obtain ⟨rfl, rest⟩ := List.cons.inj needed
        exact .some ⟨.same, .cons (.bind rest) frames, rfl⟩

theorem step_needsSame {c d : Config} (related : c.NeedsSame d) :
    Option.Rel Config.NeedsSame (step c) (step d) := by
  obtain ⟨task, stack, env⟩ := c
  obtain ⟨again, waiting, _⟩ := d
  obtain ⟨same, frames, rfl⟩ := related
  cases same with
  | bind needed => exact bind_needsSame frames _ needed _ _ env
  | same =>
    cases task with
    | eval t => exact .some (enter_needsSame frames t env)
    | bind d saved params args => exact bind_needsSame frames params rfl d saved env
    | give x =>
      cases frames with
      | nil => exact .none
      | cons first rest => exact .some (resume_needsSame rest x first env)

theorem act_needsSame {c d : Config} (related : c.NeedsSame d) : c.act = d.act := by
  have running : c.running = d.running := by
    rw [Config.running, Config.running, related.task.held, Frame.NeedsSame.held related.stack]
  obtain ⟨task, stack, env⟩ := c
  obtain ⟨again, waiting, _⟩ := d
  obtain ⟨same, frames, rfl⟩ := related
  cases same with
  | bind => rfl
  | same =>
    cases task with
    | bind => rfl
    | eval t =>
      cases t with
      | call name args => simp only [Config.act, running]
      | _ => rfl
    | give x =>
      cases frames with
      | nil => rfl
      | @cons frame again stack waiting first rest =>
        cases first with
        | bind => rfl
        | same =>
          cases frame with
          | unary f => cases f <;> rfl
          | _ => rfl

theorem lockstep_needsSame : Lockstep Config.NeedsSame where
  step := step_needsSame
  act := act_needsSame
  give := by
    intro c d x related task
    obtain ⟨_, _, _⟩ := c
    obtain ⟨_, _, _⟩ := d
    obtain ⟨same, -, -⟩ := related
    subst task
    cases same
    rfl

end Machine

namespace Node

/-- The machine takes the same steps to the same result whatever stands beyond the arguments that it needs. -/
theorem evaluate_call_eq_of_take_eq {name : String} {args others : List Node} {d : Definition} {env : Env}
    (found : env.functions.get? name = some d) (needed : args.take d.params.size = others.take d.params.size)
    (fuel : Nat) : (call name args).evaluate fuel env = (call name others).evaluate fuel env := by
  cases fuel with
  | zero => rfl
  | succ fuel =>
    have entered : ∀ list, (call name list).evaluate (fuel + 1) env =
        Machine.run fuel (.bind d [] d.params.names list) [] ((env.openCall name).beginCall d) := by
      intro list
      have one : Machine.step ⟨.eval (call name list), [], env⟩ =
          some ⟨.bind d [] d.params.names list, [], (env.openCall name).beginCall d⟩ := by
        simp only [Machine.step, Machine.enter, found]
      exact Machine.run_of_step one fuel
    have related : Machine.Config.NeedsSame
        ⟨.bind d [] d.params.names args, [], (env.openCall name).beginCall d⟩
        ⟨.bind d [] d.params.names others, [], (env.openCall name).beginCall d⟩ := ⟨.bind needed, .nil, rfl⟩
    have results := (Machine.lockstep_needsSame.run fuel related).1
    rw [← entered args, ← entered others] at results
    generalize (call name args).evaluate (fuel + 1) env = r,
      (call name others).evaluate (fuel + 1) env = q at results ⊢
    cases results with
    | none => rfl
    | some ended => exact congrArg some (Prod.ext ended.1 ended.2.env)

/-- A call of a registered function has as many arguments as the function has parameters: the surplus ones are
left out, and zeros are put where some are missing. With these it comes to an end just when it does with those
that were given, and with the same value in the same environment. What stands in the place of the surplus is not
looked at: with other trees there, the machine takes the same steps. -/
theorem call_fits_parameters {name : String} {d : Definition} {env : Env} (found : env.functions.get? name = some d)
    (args : List Node) :
    (fitArgs d.params.size args).length = d.params.size ∧
    (∀ r, (∃ fuel, (call name args).evaluate fuel env = some r) ↔
      ∃ fuel, (call name (fitArgs d.params.size args)).evaluate fuel env = some r) ∧
    ∀ others, others.take d.params.size = args.take d.params.size → ∀ fuel,
      (call name others).evaluate fuel env = (call name args).evaluate fuel env := by
  refine ⟨length_fitArgs _ args, ?_, fun others needed => evaluate_call_eq_of_take_eq found needed⟩
  rintro ⟨x, after⟩
  rw [evaluate_iff_derives, evaluate_iff_derives]
  exact Derives.call_fitArgs_iff found

end Node

/-- A function that displays both its parameters, and one that never comes back. -/
def showingPair : Env :=
  { functions := (Table.empty.insert "pair" ⟨0, "pair", ⟨"p", ["q"]⟩,
      .seq (.unary .display (.var "p")) (.unary .display (.var "q"))⟩).insert "forever" ⟨1, "forever", ⟨"p", []⟩,
        .call "forever" []⟩
    output := ⟨.capture, ""⟩, counters := some {} }

/-- The third argument would never come to an end, and stands where a display might stand as well. A call with one
argument displays a zero for the other. -/
theorem Node.call_fits_parameters_pair :
    (∃ r, (call "pair" [.num 1.0, .num 2.0, .call "forever" []]).evaluate 40 showingPair = some r ∧
      (call "pair" [.num 1.0, .num 2.0, .unary .display (.num 3.0)]).evaluate 40 showingPair = some r ∧
      r.2.output.captured = "= 1\n= 2\n") ∧
    ∃ fuel other r, (call "pair" [.num 1.0]).evaluate fuel showingPair = some r ∧
      (call "pair" [.num 1.0, .num 0.0]).evaluate other showingPair = some r ∧
        r.2.output.captured = "= 1\n= 0\n" := by
  have found : showingPair.functions.get? "pair" = some ⟨0, "pair", ⟨"p", ["q"]⟩,
      .seq (.unary .display (.var "p")) (.unary .display (.var "q"))⟩ := by
    simp [showingPair, Table.get?_insert]
  constructor
  · have ends : ((call "pair" [.num 1.0, .num 2.0, .call "forever" []]).evaluate 40 showingPair).map
        (·.2.output.captured) = some "= 1\n= 2\n" := by decide +kernel
    obtain ⟨r, run, shown⟩ := Option.map_eq_some_iff.mp ends
    obtain ⟨-, -, same⟩ := call_fits_parameters found [.num 1.0, .num 2.0, .call "forever" []]
    exact ⟨r, run, (same [.num 1.0, .num 2.0, .unary .display (.num 3.0)] rfl 40).trans run, shown⟩
  · have ends : ((call "pair" [.num 1.0]).evaluate 40 showingPair).map (·.2.output.captured) =
        some "= 1\n= 0\n" := by
      decide +kernel
    obtain ⟨r, run, shown⟩ := Option.map_eq_some_iff.mp ends
    obtain ⟨-, fits, -⟩ := call_fits_parameters found [.num 1.0]
    obtain ⟨other, again⟩ := (fits r).mp ⟨40, run⟩
    exact ⟨40, other, r, run, again, shown⟩

end TreeCalc
