import TreeCalc.Machine.Agreement

namespace TreeCalc

/-- What a run is for: to find the value of a tree, or to bind the parameters that are left with the arguments
that are left, after `saved` was saved and until `bound` is. -/
inductive Job where
  | tree (t : Node) (x : Float)
  | params (names : List String) (args : List Node) (saved bound : Saved)

/-- The runs that come to their end, by the rules of evaluation. -/
inductive Derives : Job → Env → Env → Prop
  | num {x env} : Derives (.tree (.num x) x) env env
  | var {name env} : Derives (.tree (.var name) (env.read name)) env env
  | neg {t x env after} : Derives (.tree t x) env after → Derives (.tree (.neg t) (-x)) env after
  | arith {op l r x y env middle after} : Derives (.tree l x) env middle → Derives (.tree r y) middle after →
      Derives (.tree (.arith op l r) (op.apply x y)) env after
  | compare {op l r x y env middle after} : Derives (.tree l x) env middle → Derives (.tree r y) middle after →
      Derives (.tree (.compare op l r) (op.apply x y)) env after
  | display {t x env after} : Derives (.tree t x) env after →
      Derives (.tree (.unary .display t) x) env (after.display x)
  | unary {f t x env after} : f ≠ .display → Derives (.tree t x) env after →
      Derives (.tree (.unary f t) (f.apply x)) env after
  | binary {f l r x y env middle after} : Derives (.tree l x) env middle → Derives (.tree r y) middle after →
      Derives (.tree (.binary f l r) (f.apply x y)) env after
  | list {head tail x env after} : Derives (.tree head x) env after → Derives (.tree (.list head tail) x) env after
  | assign {name t x env after} : Derives (.tree t x) env after →
      Derives (.tree (.assign name t) x) env (after.assign name x)
  | skip {test onTrue onFalse x env after} : Derives (.tree test x) env after →
      (if x != 0.0 then onTrue else onFalse) = none → Derives (.tree (.cond test onTrue onFalse) 0.0) env after
  | branch {test onTrue onFalse t x y env middle after} : Derives (.tree test x) env middle →
      (if x != 0.0 then onTrue else onFalse) = some t → Derives (.tree t y) middle after →
      Derives (.tree (.cond test onTrue onFalse) y) env after
  | seq {s t x y env middle after} : Derives (.tree s x) env middle → Derives (.tree t y) middle after →
      Derives (.tree (.seq s t) y) env after
  | params {names env} : Derives (.tree (.params names) 0.0) env env
  | define {id name ps body env} :
      Derives (.tree (.define id name ps body) 0.0) env (env.define ⟨id, name, ps, body⟩)
  | unknown {name args env} : env.functions.get? name = none →
      Derives (.tree (.call name args) 0.0) env (env.openCall name).rejectCall
  | call {name args d bound x env middle after} : env.functions.get? name = some d →
      Derives (.params d.params.names args [] bound) ((env.openCall name).beginCall d) middle →
      Derives (.tree d.body x) middle after → Derives (.tree (.call name args) x) env (after.endCall d bound x)
  | done {args saved env} : Derives (.params [] args saved saved) env env
  | missing {p ps saved bound env after} :
      Derives (.params ps [] (env.save saved p) bound) (env.assign p 0.0) after →
      Derives (.params (p :: ps) [] saved bound) env after
  | argument {p ps a as saved bound x env middle after} : Derives (.tree a x) env middle →
      Derives (.params ps as (env.save saved p) bound) (middle.assign p x) after →
      Derives (.params (p :: ps) (a :: as) saved bound) env after

namespace Derives

theorem of_bindParams {ev : Node → Env → Outcome}
    (sound : ∀ t env x after, ev t env = some (x, after) → Derives (.tree t x) env after) (params : List String)
    (args : List Node) (saved : Saved) (env : Env) {bound : Saved} {after : Env}
    (run : bindParams ev params args saved env = some (bound, after)) :
    Derives (.params params args saved bound) env after := by
  induction params generalizing args saved env with
  | nil =>
    obtain ⟨rfl, rfl⟩ := Prod.mk.inj (Option.some.inj run)
    exact .done
  | cons p ps ih =>
    cases args with
    | nil => exact .missing (ih _ _ _ run)
    | cons a as =>
      obtain ⟨⟨x, middle⟩, argument, rest⟩ := Option.bind_eq_some_iff.mp run
      exact .argument (sound _ _ _ _ argument) (ih _ _ _ rest)

theorem of_eval {fuel : Nat} {t : Node} {env after : Env} {x : Float} (run : eval fuel t env = some (x, after)) :
    Derives (.tree t x) env after := by
  induction fuel generalizing t env x after with
  | zero => cases run
  | succ fuel ih =>
    rw [eval] at run
    cases t with
    | num y => cases run; exact .num
    | var name => cases run; exact .var
    | params names => cases run; exact .params
    | define id name ps body => cases run; exact .define
    | list head tail => exact .list (ih run)
    | neg t =>
      obtain ⟨⟨y, middle⟩, operand, rest⟩ := Option.bind_eq_some_iff.mp run
      cases rest
      exact .neg (ih operand)
    | unary f t =>
      obtain ⟨⟨y, middle⟩, operand, rest⟩ := Option.bind_eq_some_iff.mp run
      cases rest
      by_cases shown : f = .display
      · subst shown
        exact .display (ih operand)
      · simp only [if_neg shown]
        exact .unary shown (ih operand)
    | assign name t =>
      obtain ⟨⟨y, middle⟩, operand, rest⟩ := Option.bind_eq_some_iff.mp run
      cases rest
      exact .assign (ih operand)
    | arith op l r =>
      obtain ⟨⟨y, middle⟩, left, rest⟩ := Option.bind_eq_some_iff.mp run
      obtain ⟨⟨z, last⟩, right, rest⟩ := Option.bind_eq_some_iff.mp rest
      cases rest
      exact .arith (ih left) (ih right)
    | compare op l r =>
      obtain ⟨⟨y, middle⟩, left, rest⟩ := Option.bind_eq_some_iff.mp run
      obtain ⟨⟨z, last⟩, right, rest⟩ := Option.bind_eq_some_iff.mp rest
      cases rest
      exact .compare (ih left) (ih right)
    | binary f l r =>
      obtain ⟨⟨y, middle⟩, left, rest⟩ := Option.bind_eq_some_iff.mp run
      obtain ⟨⟨z, last⟩, right, rest⟩ := Option.bind_eq_some_iff.mp rest
      cases rest
      exact .binary (ih left) (ih right)
    | seq s t =>
      obtain ⟨⟨y, middle⟩, first, second⟩ := Option.bind_eq_some_iff.mp run
      exact .seq (ih first) (ih second)
    | cond test onTrue onFalse =>
      obtain ⟨⟨y, middle⟩, tested, rest⟩ := Option.bind_eq_some_iff.mp run
      simp only at rest
      cases chosen : (if y != 0.0 then onTrue else onFalse) with
      | none =>
        rw [chosen] at rest
        cases rest
        exact .skip (ih tested) chosen
      | some t =>
        rw [chosen] at rest
        exact .branch (ih tested) chosen (ih rest)
    | call name args =>
      simp only [evalWith, callWith] at run
      cases found : (env.openCall name).functions.get? name with
      | none =>
        rw [found] at run
        cases run
        exact .unknown found
      | some d =>
        rw [found] at run
        obtain ⟨⟨bound, middle⟩, binding, rest⟩ := Option.bind_eq_some_iff.mp run
        obtain ⟨⟨y, last⟩, body, rest⟩ := Option.bind_eq_some_iff.mp rest
        cases rest
        exact .call found (of_bindParams (fun _ _ _ _ => ih) _ _ _ _ binding) (ih body)

theorem exists_eval_both {s t : Node} {env middle : Env} {r u : Float × Env}
    (first : ∃ fuel, eval fuel s env = some r) (second : ∃ fuel, eval fuel t middle = some u) :
    ∃ fuel, eval fuel s env = some r ∧ eval fuel t middle = some u := by
  obtain ⟨fuel, left⟩ := first
  obtain ⟨more, right⟩ := second
  exact ⟨max fuel more, eval_mono (Nat.le_max_left _ _) _ _ _ left, eval_mono (Nat.le_max_right _ _) _ _ _ right⟩

/-- A job is computed when evaluation does it with some fuel. -/
def Computed : Job → Env → Env → Prop
  | .tree t x, env, after => ∃ fuel, eval fuel t env = some (x, after)
  | .params names args saved bound, env, after =>
    ∃ fuel, bindParams (eval fuel) names args saved env = some (bound, after)

theorem computed {job : Job} {env after : Env} (run : Derives job env after) : Computed job env after := by
  induction run with
  | num | var | params | define => exact ⟨1, rfl⟩
  | done => exact ⟨0, rfl⟩
  | neg _ ih | display _ ih | assign _ ih =>
    obtain ⟨fuel, operand⟩ := ih
    exact ⟨fuel + 1, Option.bind_eq_some_iff.mpr ⟨_, operand, rfl⟩⟩
  | unary other _ ih =>
    obtain ⟨fuel, operand⟩ := ih
    exact ⟨fuel + 1, Option.bind_eq_some_iff.mpr ⟨_, operand, by simp only [if_neg other]⟩⟩
  | list _ ih =>
    obtain ⟨fuel, head⟩ := ih
    exact ⟨fuel + 1, head⟩
  | arith _ _ left right | compare _ _ left right | binary _ _ left right =>
    obtain ⟨fuel, left, right⟩ := exists_eval_both left right
    exact ⟨fuel + 1, Option.bind_eq_some_iff.mpr ⟨_, left, Option.bind_eq_some_iff.mpr ⟨_, right, rfl⟩⟩⟩
  | seq _ _ first second =>
    obtain ⟨fuel, first, second⟩ := exists_eval_both first second
    exact ⟨fuel + 1, Option.bind_eq_some_iff.mpr ⟨_, first, second⟩⟩
  | skip _ chosen ih =>
    obtain ⟨fuel, tested⟩ := ih
    exact ⟨fuel + 1, Option.bind_eq_some_iff.mpr ⟨_, tested, by simp only [chosen]⟩⟩
  | branch _ chosen _ tested taken =>
    obtain ⟨fuel, tested, taken⟩ := exists_eval_both tested taken
    exact ⟨fuel + 1, Option.bind_eq_some_iff.mpr ⟨_, tested, by simp only [chosen, taken]⟩⟩
  | @unknown name args env found =>
    have opened : (env.openCall name).functions.get? name = none := found
    exact ⟨1, by simp only [eval, evalWith, callWith, opened]⟩
  | @call name args d bound x env middle after found _ _ binding body =>
    obtain ⟨fuel, binding⟩ := binding
    obtain ⟨more, body⟩ := body
    have opened : (env.openCall name).functions.get? name = some d := found
    refine ⟨max fuel more + 1, ?_⟩
    simp only [eval, evalWith, callWith, opened]
    exact Option.bind_eq_some_iff.mpr
      ⟨_, (eval_mono (Nat.le_max_left fuel more)).bindParams _ _ _ _ binding, Option.bind_eq_some_iff.mpr
        ⟨_, eval_mono (Nat.le_max_right fuel more) _ _ _ body, rfl⟩⟩
  | missing _ ih => exact ih
  | argument _ _ first rest =>
    obtain ⟨fuel, first⟩ := first
    obtain ⟨more, rest⟩ := rest
    exact ⟨max fuel more, Option.bind_eq_some_iff.mpr ⟨_, eval_mono (Nat.le_max_left _ _) _ _ _ first,
      (eval_mono (Nat.le_max_right fuel more)).bindParams _ _ _ _ rest⟩⟩

/-- A tree comes to one end at most. -/
theorem unique {t : Node} {env after later : Env} {x y : Float} (run : Derives (.tree t x) env after)
    (again : Derives (.tree t y) env later) : x = y ∧ after = later := by
  obtain ⟨fuel, first⟩ := run.computed
  obtain ⟨other, second⟩ := again.computed
  exact Prod.mk.inj (eval_unique first second)

end Derives

/-- Evaluation comes to exactly the results that follow by the rules. -/
theorem Node.evaluate_iff_derives (t : Node) (env : Env) (x : Float) (after : Env) :
    (∃ fuel, t.evaluate fuel env = some (x, after)) ↔ Derives (.tree t x) env after := by
  rw [t.exists_evaluate_iff]
  constructor
  · rintro ⟨fuel, run⟩
    exact .of_eval run
  · exact Derives.computed

end TreeCalc
