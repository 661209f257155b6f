import TreeCalc.Proofs.MachineSteps
import TreeCalc.Proofs.Rules

namespace TreeCalc

namespace Machine

/-- The machine does a job whatever waits on the stack: from the tree it comes to give the value, and from the
parameters to those that come after them. -/
def Does : Job → Env → Env → Prop
  | .tree t x, env, after => ∀ stack, Reaches ⟨.eval t, stack, env⟩ ⟨.give x, stack, after⟩
  | .params names args saved bound, env, after => ∀ d more stack,
    Reaches ⟨.bind d saved (names ++ more) args, stack, env⟩
      ⟨.bind d bound more (args.drop names.length), stack, after⟩

theorem Reaches.between {c next mid last : Config} (path : Reaches next mid) (enter : step c = some next)
    (leave : step mid = some last) : Reaches c last :=
  .head enter (path.tail leave)

/-- Two operands: the value of the left one waits on the stack for that of the right one. -/
theorem Does.operands {l r s : Node} {env middle after : Env} {x y z : Float} {frame other : Frame}
    (left : Does (.tree l x) env middle) (right : Does (.tree r y) middle after)
    (enter : ∀ stack, step ⟨.eval s, stack, env⟩ = some ⟨.eval l, frame :: stack, env⟩)
    (turn : ∀ stack, step ⟨.give x, frame :: stack, middle⟩ = some ⟨.eval r, other :: stack, middle⟩)
    (leave : ∀ stack, step ⟨.give y, other :: stack, after⟩ = some ⟨.give z, stack, after⟩) :
    Does (.tree s z) env after := by
  intro stack
  have first := Reaches.between (left (frame :: stack)) (enter stack) (turn stack)
  have second := (right (other :: stack)).tail (leave stack)
  exact first.trans second

/-- What follows by the rules, the machine passes through. -/
theorem does_of_derives {job : Job} {env after : Env} (run : Derives job env after) : Does job env after := by
  induction run with
  | num | var | params | define => exact fun stack => .single rfl
  | done => exact fun d more stack => .refl
  | list _ ih => exact fun stack => .head rfl (ih stack)
  | neg _ ih => exact fun stack => Reaches.between (ih (.neg :: stack)) rfl rfl
  | display _ ih => exact fun stack => Reaches.between (ih (.unary .display :: stack)) rfl rfl
  | @unary f t x env after other _ ih =>
    intro stack
    refine Reaches.between (ih (.unary f :: stack)) rfl ?_
    simp only [step, resume, if_neg other]
  | @assign name t x env after _ ih => exact fun stack => Reaches.between (ih (.assign name :: stack)) rfl rfl
  | arith _ _ left right => exact left.operands right (fun _ => rfl) (fun _ => rfl) fun _ => rfl
  | compare _ _ left right => exact left.operands right (fun _ => rfl) (fun _ => rfl) fun _ => rfl
  | binary _ _ left right => exact left.operands right (fun _ => rfl) (fun _ => rfl) fun _ => rfl
  | @skip test onTrue onFalse x env after _ chosen ih =>
    intro stack
    refine Reaches.between (ih (.cond onTrue onFalse :: stack)) rfl ?_
    simp only [step, resume, chosen]
  | @branch test onTrue onFalse t x y env middle after _ chosen _ tested taken =>
    intro stack
    have turn : step ⟨.give x, .cond onTrue onFalse :: stack, middle⟩ = some ⟨.eval t, stack, middle⟩ := by
      simp only [step, resume, chosen]
    exact (Reaches.between (tested (.cond onTrue onFalse :: stack)) rfl turn).trans (taken stack)
  | @seq s t x y env middle after _ _ first second =>
    intro stack
    exact (Reaches.between (first (.seq t :: stack)) rfl rfl).trans (second stack)
  | @unknown name args env found =>
    intro stack
    refine .single ?_
    simp only [step, enter, found]
  | @call name args d bound x env middle after found _ _ binding body =>
    intro stack
    have entered : step ⟨.eval (.call name args), stack, env⟩ =
        some ⟨.bind d [] d.params.names args, stack, (env.openCall name).beginCall d⟩ := by
      simp only [step, enter, found]
    have bindings := binding d [] stack
    rw [List.append_nil] at bindings
    have started := Reaches.between bindings entered rfl
    exact started.trans ((body (.finish d bound :: stack)).tail rfl)
  | missing _ ih =>
    intro d more stack
    have rest := ih d more stack
    rw [List.drop_nil] at rest ⊢
    exact .head rfl rest
  | @argument p ps a as saved bound x env middle after _ _ first rest =>
    intro d more stack
    have entered : step ⟨.bind d saved (p :: (ps ++ more)) (a :: as), stack, env⟩ =
        some ⟨.eval a, .bind d (env.save saved p) p (ps ++ more) as :: stack, env⟩ := rfl
    have assigned := Reaches.between (first (.bind d (env.save saved p) p (ps ++ more) as :: stack)) entered rfl
    exact assigned.trans (rest d more stack)

/-- From every configuration that a run passes through, what is left of the run comes to the same end. -/
theorem exists_run_of_reaches {c later : Config} {r : Float × Env} (path : Reaches c later) {fuel : Nat}
    (ends : run fuel c.task c.stack c.env = some r) :
    ∃ rest, run rest later.task later.stack later.env = some r := by
  induction path with
  | refl => exact ⟨fuel, ends⟩
  | tail _ one ih =>
    obtain ⟨rest, left⟩ := ih
    obtain ⟨steps, rfl⟩ := exists_succ_of_run left
    rw [run_of_step one] at left
    exact ⟨steps, left⟩

end Machine

/-- An evaluation that ends finds the value of every tree that it sets out to evaluate, and goes on from there. -/
theorem Node.exists_derives_of_reaches {t s : Node} {fuel : Nat} {x : Float} {env middle after : Env}
    {stack : List Frame} (ends : t.evaluate fuel env = some (x, after))
    (path : Machine.Reaches ⟨.eval t, [], env⟩ ⟨.eval s, stack, middle⟩) :
    ∃ y later, Derives (.tree s y) middle later ∧ Machine.Reaches ⟨.give y, stack, later⟩ ⟨.give x, [], after⟩ := by
  obtain ⟨rest, left⟩ := Machine.exists_run_of_reaches path ends
  obtain ⟨level, y, later, value, more, -, given⟩ := Machine.passes_of_run rest s stack middle left
  have onwards : Machine.run more (Machine.Config.mk (.give y) stack later).task stack later = some (x, after) :=
    given
  exact ⟨y, later, .of_eval value, Machine.reaches_of_run onwards⟩

end TreeCalc
