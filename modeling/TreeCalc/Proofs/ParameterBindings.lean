import TreeCalc.Proofs.Restoring
import TreeCalc.Proofs.Rules

namespace TreeCalc

theorem Env.get?_putBack_save_of_mem {saved : Saved} {p : String} (env : Env) (member : p ∈ saved.names)
    (q : String) (vars : Table Float) :
    ((env.save saved q).putBack vars).get? p = (saved.putBack vars).get? p := by
  by_cases known : q ∈ saved.names
  · rw [Env.save_of_mem env known]
  · have apart : q ≠ p := fun same => known (same ▸ member)
    rw [Env.save_of_notMem env known, Saved.putBack_append, Table.get?_put, if_neg apart]

theorem Env.get?_putBack_save_of_notMem {saved : Saved} {p : String} (env : Env) (free : p ∉ saved.names)
    (vars : Table Float) : ((env.save saved p).putBack vars).get? p = env.vars.get? p := by
  rw [Env.save_of_notMem env free, Saved.putBack_append, Table.get?_put, if_pos rfl]

namespace Derives

/-- A binding that was saved is not saved again by the parameters that follow. -/
theorem get?_putBack_of_saved {p : String} (names : List String) {args : List Node} {saved bound : Saved}
    {env after : Env} (run : Derives (.params names args saved bound) env after) (member : p ∈ saved.names)
    (vars : Table Float) : (bound.putBack vars).get? p = (saved.putBack vars).get? p := by
  induction names generalizing args saved env with
  | nil =>
    cases run
    rfl
  | cons q names ih =>
    have known : p ∈ (env.save saved q).names := (env.mem_names_save saved q p).mpr (Or.inr member)
    have kept := env.get?_putBack_save_of_mem member q vars
    cases run with
    | missing rest => exact (ih rest known).trans kept
    | argument _ rest => exact (ih rest known).trans kept

/-- Binding parameters passes through the moment at which the binding of a parameter is saved: the parameters
before its first occurrence are bound by then, and what is saved is the binding that it has there. -/
theorem exists_before_param {p : String} (names : List String) {args : List Node} {saved bound : Saved}
    {env after : Env} (run : Derives (.params names args saved bound) env after) (member : p ∈ names)
    (free : p ∉ saved.names) :
    ∃ earlier before, Derives (.params (names.takeWhile (· != p)) args saved earlier) env before ∧
      ∀ vars, (bound.putBack vars).get? p = before.vars.get? p := by
  induction names generalizing args saved env with
  | nil => cases member
  | cons q names ih =>
    by_cases same : q = p
    · subst same
      have nothing : (q :: names).takeWhile (· != q) = [] := by simp
      have known : q ∈ (env.save saved q).names := (env.mem_names_save saved q q).mpr (Or.inl rfl)
      refine ⟨saved, env, by rw [nothing]; exact .done, ?_⟩
      intro vars
      have here := env.get?_putBack_save_of_notMem free vars
      cases run with
      | missing rest => exact (get?_putBack_of_saved names rest known vars).trans here
      | argument _ rest => exact (get?_putBack_of_saved names rest known vars).trans here
    · have more : (q :: names).takeWhile (· != p) = q :: names.takeWhile (· != p) := by simp [same]
      have later : p ∈ names := (List.mem_cons.mp member).resolve_left (Ne.symm same)
      have unsaved : p ∉ (env.save saved q).names := by
        rw [env.mem_names_save]
        exact not_or.mpr ⟨Ne.symm same, free⟩
      rw [more]
      cases run with
      | missing rest =>
        obtain ⟨earlier, before, prior, given⟩ := ih rest later unsaved
        exact ⟨earlier, before, .missing prior, given⟩
      | argument first rest =>
        obtain ⟨earlier, before, prior, given⟩ := ih rest later unsaved
        exact ⟨earlier, before, .argument first prior, given⟩

end Derives

/-- A call gives a parameter back the binding that it had once the arguments of the parameters before it were
evaluated and bound. So the caller finds the binding from before the call exactly when these arguments leave it as
it is. -/
theorem Node.call_gives_back_iff {name p : String} {args : List Node} {d : Definition} {fuel : Nat} {x : Float}
    {env after : Env} (found : env.functions.get? name = some d) (member : p ∈ d.params.names)
    (run : (Node.call name args).evaluate fuel env = some (x, after)) :
    ∃ level saved before, bindParams (eval level) (d.params.names.takeWhile (· != p)) args []
        ((env.openCall name).beginCall d) = some (saved, before) ∧
      after.vars.get? p = before.vars.get? p ∧
      (after.vars.get? p = env.vars.get? p ↔ before.vars.get? p = env.vars.get? p) := by
  cases ((Node.call name args).evaluate_iff_derives env x after).mp ⟨fuel, run⟩ with
  | unknown missing => cases missing.symm.trans found
  | @call _ _ _ bound _ _ _ last registered binding body =>
    cases Option.some.inj (registered.symm.trans found)
    obtain ⟨saved, before, prior, given⟩ := binding.exists_before_param _ member (by simp [Saved.names])
    obtain ⟨level, computed⟩ := prior.computed
    have restored : (last.endCall d bound x).vars.get? p = before.vars.get? p := given last.vars
    exact ⟨level, saved, before, computed, restored, by rw [restored]⟩

/-- An environment with a function of the parameters `p` and `q` and no variables. -/
def twoParameters : Env :=
  { functions := Table.empty.insert "f" ⟨0, "f", ⟨"p", ["q"]⟩, .num 0.0⟩, output := ⟨.silent, ""⟩ }

/-- The first argument of a call assigns to the second parameter, and the caller keeps the assignment. -/
theorem Node.call_gives_back_iff_twoParameters :
    twoParameters.vars.get? "q" = none ∧
      ∃ fuel x after, (Node.call "f" [.assign "q" (.num 5.0)]).evaluate fuel twoParameters = some (x, after) ∧
        after.vars.get? "q" = some 5.0 := by
  have found : twoParameters.functions.get? "f" = some ⟨0, "f", ⟨"p", ["q"]⟩, .num 0.0⟩ :=
    Table.get?_insert_self _ _ _
  have derived : ∃ x after, Derives (.tree (.call "f" [.assign "q" (.num 5.0)]) x) twoParameters after :=
    ⟨_, _, .call found (.argument (.assign .num) (.missing .done)) .num⟩
  obtain ⟨x, after, derived⟩ := derived
  obtain ⟨fuel, run⟩ := (Node.evaluate_iff_derives ..).mpr derived
  obtain ⟨level, saved, before, bound, given, -⟩ :=
    Node.call_gives_back_iff found (List.mem_cons_of_mem "p" List.mem_cons_self) run
  have first : before.vars.get? "q" = some 5.0 := by
    obtain ⟨⟨y, middle⟩, argument, rest⟩ := Option.bind_eq_some_iff.mp bound
    cases Derives.of_eval argument with
    | assign value =>
      cases value
      cases rest
      simp [Env.assign, Table.get?_insert]
  exact ⟨Table.get?_empty _, fuel, x, after, run, given.trans first⟩

end TreeCalc
