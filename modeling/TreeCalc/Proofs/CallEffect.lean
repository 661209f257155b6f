import TreeCalc.Proofs.Acts
import TreeCalc.Proofs.Moments
import TreeCalc.Proofs.ParameterBindings

namespace TreeCalc

namespace Machine

/-- A call with nothing waiting on the stack, when its parameters from the `i`-th on are still to be bound. -/
def beforeParam (d : Definition) (args : List Node) (i : Nat) (saved : Saved) (env : Env) : Config :=
  ⟨.bind d saved (d.params.names.drop i) (args.drop i), [], env⟩

/-- A call with nothing else waiting on the stack, when its body has come to a value. -/
def afterBody (d : Definition) (saved : Saved) (x : Float) (env : Env) : Config := ⟨.give x, [.finish d saved], env⟩

end Machine

namespace Derives

/-- Binding parameters saves their bindings and no others. -/
theorem mem_names_bound (names : List String) {args : List Node} {saved bound : Saved} {env after : Env}
    (run : Derives (.params names args saved bound) env after) (q : String) :
    q ∈ bound.names ↔ q ∈ names ∨ q ∈ saved.names := by
  induction names generalizing args saved env with
  | nil =>
    cases run
    simp
  | cons p names ih =>
    have step : q ∈ (env.save saved p).names ↔ q = p ∨ q ∈ saved.names := env.mem_names_save saved p q
    have either : q ∈ bound.names ↔ q ∈ names ∨ q ∈ (env.save saved p).names := by
      cases run with
      | missing rest => exact ih rest
      | argument _ rest => exact ih rest
    rw [either, step, List.mem_cons]
    grind

/-- The machine binds the parameters before the first occurrence of a name and is then about to bind that one. -/
theorem reaches_beforeParam {d : Definition} {p : String} {args : List Node} {earlier : Saved} {env before : Env}
    (run : Derives (.params (d.params.names.takeWhile (· != p)) args [] earlier) env before) :
    Machine.Reaches ⟨.bind d [] d.params.names args, [], env⟩
      (Machine.beforeParam d args (d.params.names.idxOf p) earlier before) := by
  have place : d.params.names.findIdx (fun q => !(q != p)) = d.params.names.idxOf p :=
    congrArg d.params.names.findIdx (funext fun q => Bool.not_not _)
  have front : (d.params.names.takeWhile (· != p)).length = d.params.names.idxOf p := by
    rw [List.takeWhile_eq_take_findIdx_not, place, List.length_take]
    exact Nat.min_eq_left List.idxOf_le_length
  have path := Machine.does_of_derives run d (d.params.names.dropWhile (· != p)) []
  rw [List.takeWhile_append_dropWhile, List.dropWhile_eq_drop_findIdx_not, place, front] at path
  exact path

end Derives

/-- What a call leaves of the variables. A name that is no parameter has what the body left it with. A parameter
has the binding, or none, that it had just before the argument for its first occurrence was evaluated, when the
parameters before that were bound; further occurrences do not matter. The depth of calls is what it was. -/
theorem Node.call_leaves_variables {name : String} {args : List Node} {d : Definition} {fuel : Nat} {x : Float}
    {env after : Env} (found : env.functions.get? name = some d)
    (run : (Node.call name args).evaluate fuel env = some (x, after)) :
    ∃ bound last, Machine.Reaches ⟨.eval (.call name args), [], env⟩ (Machine.afterBody d bound x last) ∧
      (∀ q, q ∉ d.params.names → after.vars.get? q = last.vars.get? q) ∧
      (∀ p ∈ d.params.names, ∃ saved before,
        Machine.Reaches ⟨.eval (.call name args), [], env⟩
          (Machine.beforeParam d args (d.params.names.idxOf p) saved before) ∧
        after.vars.get? p = before.vars.get? p) ∧
      after.callDepth = env.callDepth := by
  have watched := Node.evaluate_watched run
  rw [Watched.record_all] at watched
  have depth : after.callDepth = env.callDepth := congrArg Watched.callDepth watched
  cases ((Node.call name args).evaluate_iff_derives env x after).mp ⟨fuel, run⟩ with
  | unknown missing => cases missing.symm.trans found
  | @call _ _ _ bound _ _ middle last registered binding body =>
    cases Option.some.inj (registered.symm.trans found)
    have entered : Machine.step ⟨.eval (.call name args), [], env⟩ =
        some ⟨.bind d [] d.params.names args, [], (env.openCall name).beginCall d⟩ := by
      simp only [Machine.step, Machine.enter, found]
    have bindings := Machine.does_of_derives binding d [] []
    rw [List.append_nil] at bindings
    have started := Machine.Reaches.between bindings entered rfl
    refine ⟨bound, last, started.trans (Machine.does_of_derives body [.finish d bound]), ?_, ?_, depth⟩
    · intro q other
      have unsaved : q ∉ bound.names := by
        rw [binding.mem_names_bound]
        simp [other, Saved.names]
      exact Saved.get?_putBack_of_notMem unsaved last.vars
    · intro p member
      obtain ⟨saved, before, prior, given⟩ := binding.exists_before_param _ member (by simp [Saved.names])
      exact ⟨saved, before, .head entered prior.reaches_beforeParam, given last.vars⟩

/-- A function with a repeated parameter, which writes to it and to a variable that is none. -/
def Definition.repeating : Definition :=
  ⟨0, "f", ⟨"p", ["q", "p"]⟩, .seq (.assign "p" (.num 9.0)) (.assign "z" (.var "q"))⟩

/-- An environment with that function in which `p` is bound and `q` is not. -/
def callingRepeating : Env :=
  { vars := Table.empty.insert "p" 1.0, functions := Table.empty.insert "f" .repeating, output := ⟨.silent, ""⟩ }

/-- The first argument writes to `q` before the binding of `q` is saved, so that `q` keeps what it wrote; `p` goes
back to what it was before the call, and `z` stays as the body left it. -/
theorem Node.call_leaves_variables_repeating : ∃ x after bound last,
    (Node.call "f" [.assign "q" (.num 5.0), .num 2.0, .num 3.0]).evaluate 40 callingRepeating = some (x, after) ∧
    Machine.Reaches ⟨.eval (.call "f" [.assign "q" (.num 5.0), .num 2.0, .num 3.0]), [], callingRepeating⟩
      (Machine.afterBody .repeating bound x last) ∧
    after.vars.get? "z" = last.vars.get? "z" ∧ after.vars.get? "z" = some 2.0 ∧
    (∃ saved before,
      Machine.Reaches ⟨.eval (.call "f" [.assign "q" (.num 5.0), .num 2.0, .num 3.0]), [], callingRepeating⟩
        (Machine.beforeParam .repeating [.assign "q" (.num 5.0), .num 2.0, .num 3.0] 1 saved before) ∧
      after.vars.get? "q" = before.vars.get? "q" ∧ after.vars.get? "q" = some 5.0) ∧
    after.vars.get? "p" = some 1.0 ∧ after.callDepth = 0 := by
  let args : List Node := [.assign "q" (.num 5.0), .num 2.0, .num 3.0]
  have found : callingRepeating.functions.get? "f" = some .repeating := Table.get?_insert_self _ _ _
  have ends : ((Node.call "f" args).evaluate 40 callingRepeating).map (fun r =>
      (r.2.vars.get? "z", r.2.vars.get? "q", r.2.vars.get? "p")) = some (some 2.0, some 5.0, some 1.0) := by
    decide +kernel
  obtain ⟨⟨x, after⟩, run, values⟩ := Option.map_eq_some_iff.mp ends
  obtain ⟨z, q, p⟩ : after.vars.get? "z" = some 2.0 ∧ after.vars.get? "q" = some 5.0 ∧
      after.vars.get? "p" = some 1.0 := by
    simpa using values
  obtain ⟨bound, last, finished, others, params, depth⟩ := Node.call_leaves_variables found run
  have free : "z" ∉ Definition.repeating.params.names := by decide
  have member : "q" ∈ Definition.repeating.params.names := by decide
  obtain ⟨saved, before, moment, given⟩ := params "q" member
  exact ⟨x, after, bound, last, run, finished, others "z" free, z, ⟨saved, before, moment, given, q⟩, p, depth⟩

end TreeCalc
