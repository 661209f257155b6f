import Mathlib.Logic.Relation
import TreeCalc.Machine
import TreeCalc.Proofs.Occurrence

namespace TreeCalc

namespace Machine

/-- The machine between two steps. -/
structure Config where
  task : Task
  stack : List Frame
  env : Env

/-- How the machine sets out to evaluate a tree. -/
def enter (t : Node) (stack : List Frame) (env : Env) : Config :=
  match t with
  | .num x => ⟨.give x, stack, env⟩
  | .var name => ⟨.give (env.read name), stack, env⟩
  | .neg t => ⟨.eval t, .neg :: stack, env⟩
  | .arith op l r => ⟨.eval l, .arithLeft op r :: stack, env⟩
  | .compare op l r => ⟨.eval l, .compareLeft op r :: stack, env⟩
  | .unary f t => ⟨.eval t, .unary f :: stack, env⟩
  | .binary f l r => ⟨.eval l, .binaryLeft f r :: stack, env⟩
  | .list head _ => ⟨.eval head, stack, env⟩
  | .assign name t => ⟨.eval t, .assign name :: stack, env⟩
  | .cond test onTrue onFalse => ⟨.eval test, .cond onTrue onFalse :: stack, env⟩
  | .seq first second => ⟨.eval first, .seq second :: stack, env⟩
  | .params _ => ⟨.give 0.0, stack, env⟩
  | .define id name ps body => ⟨.give 0.0, stack, env.define ⟨id, name, ps, body⟩⟩
  | .call name args =>
    match env.functions.get? name with
    | none => ⟨.give 0.0, stack, (env.openCall name).rejectCall⟩
    | some d => ⟨.bind d [] d.params.names args, stack, (env.openCall name).beginCall d⟩

/-- How the machine goes on with a value. -/
def resume (x : Float) (frame : Frame) (stack : List Frame) (env : Env) : Config :=
  match frame with
  | .neg => ⟨.give (-x), stack, env⟩
  | .arithLeft op r => ⟨.eval r, .arithRight op x :: stack, env⟩
  | .arithRight op y => ⟨.give (op.apply y x), stack, env⟩
  | .compareLeft op r => ⟨.eval r, .compareRight op x :: stack, env⟩
  | .compareRight op y => ⟨.give (op.apply y x), stack, env⟩
  | .unary f => ⟨.give (f.apply x), stack, if f = .display then env.display x else env⟩
  | .binaryLeft f r => ⟨.eval r, .binaryRight f x :: stack, env⟩
  | .binaryRight f y => ⟨.give (f.apply y x), stack, env⟩
  | .assign name => ⟨.give x, stack, env.assign name x⟩
  | .cond onTrue onFalse =>
    match if x != 0.0 then onTrue else onFalse with
    | none => ⟨.give 0.0, stack, env⟩
    | some branch => ⟨.eval branch, stack, env⟩
  | .seq second => ⟨.eval second, stack, env⟩
  | .bind d saved p ps as => ⟨.bind d saved ps as, stack, env.assign p x⟩
  | .finish d saved => ⟨.give x, stack, env.endCall d saved x⟩

/-- One step of the machine. There is none when a value is there and nothing is left to do with it. -/
def step : Config → Option Config
  | ⟨.eval t, stack, env⟩ => some (enter t stack env)
  | ⟨.bind d saved [] _, stack, env⟩ => some ⟨.eval d.body, .finish d saved :: stack, env⟩
  | ⟨.bind d saved (p :: ps) [], stack, env⟩ => some ⟨.bind d (env.save saved p) ps [], stack, env.assign p 0.0⟩
  | ⟨.bind d saved (p :: ps) (a :: as), stack, env⟩ =>
    some ⟨.eval a, .bind d (env.save saved p) p ps as :: stack, env⟩
  | ⟨.give _, [], _⟩ => none
  | ⟨.give x, frame :: stack, env⟩ => some (resume x frame stack env)

def Reaches : Config → Config → Prop := Relation.ReflTransGen fun c next => step c = some next

theorem run_of_step {c next : Config} (one : step c = some next) (fuel : Nat) :
    run (fuel + 1) c.task c.stack c.env = run fuel next.task next.stack next.env := by
  obtain ⟨task, stack, env⟩ := c
  cases task with
  | eval t =>
    cases Option.some.inj one
    cases t with
    | call name args =>
      have opened : (env.openCall name).functions.get? name = env.functions.get? name := rfl
      simp only [run, enter, opened]
      cases env.functions.get? name <;> rfl
    | _ => rfl
  | bind d saved params args =>
    cases params with
    | nil =>
      cases Option.some.inj one
      rfl
    | cons p ps =>
      cases args <;> cases Option.some.inj one <;> rfl
  | give x =>
    cases stack with
    | nil => cases one
    | cons frame stack =>
      cases Option.some.inj one
      cases frame with
      | cond onTrue onFalse =>
        simp only [run, resume]
        cases (if x != 0.0 then onTrue else onFalse) <;> rfl
      | _ => rfl

theorem step_eq_none {c : Config} (ended : step c = none) : ∃ x, c.task = .give x ∧ c.stack = [] := by
  obtain ⟨task, stack, env⟩ := c
  cases task with
  | eval t => cases ended
  | bind d saved params args =>
    cases params with
    | nil => cases ended
    | cons p ps => cases args <;> cases ended
  | give x =>
    cases stack with
    | nil => exact ⟨x, rfl, rfl⟩
    | cons frame stack => cases ended

/-- A run that ends goes step by step to the configuration that has nothing left but its value. -/
theorem reaches_of_run {fuel : Nat} {c : Config} {r : Float × Env}
    (ends : run fuel c.task c.stack c.env = some r) : Reaches c ⟨.give r.1, [], r.2⟩ := by
  induction fuel generalizing c with
  | zero => simp [run] at ends
  | succ fuel ih =>
    cases one : step c with
    | none =>
      obtain ⟨x, task, stack⟩ := step_eq_none one
      rw [task, stack] at ends
      cases Option.some.inj ends
      rw [← task, ← stack]
      exact .refl
    | some next =>
      rw [run_of_step one] at ends
      exact .head one (ih ends)

theorem reaches_of_evaluate {fuel : Nat} {t : Node} {env after : Env} {x : Float}
    (ends : t.evaluate fuel env = some (x, after)) : Reaches ⟨.eval t, [], env⟩ ⟨.give x, [], after⟩ :=
  reaches_of_run (c := ⟨.eval t, [], env⟩) ends

end Machine

/-- The handle with which a task keeps the function of a running call. -/
def Task.held : Task → List Definition
  | .bind d _ _ _ => [d]
  | .eval _ | .give _ => []

def Frame.held : Frame → List Definition
  | .bind d .. | .finish d _ => [d]
  | _ => []

def Task.trees : Task → List Node
  | .eval t => [t]
  | .bind _ _ _ args => args
  | .give _ => []

/-- The trees that wait in a frame. -/
def Frame.trees : Frame → List Node
  | .arithLeft _ r | .compareLeft _ r | .binaryLeft _ r | .seq r => [r]
  | .cond onTrue onFalse => onTrue.toList ++ onFalse.toList
  | .bind _ _ _ _ args => args
  | _ => []

namespace Machine

/-- The functions of the running calls, the innermost call first. -/
def Config.running (c : Config) : List Definition := c.task.held ++ c.stack.flatMap Frame.held

def Config.trees (c : Config) : List Node := c.task.trees ++ c.stack.flatMap Frame.trees

/-- What a step does to functions, handles and calls: nothing, or it registers a definition, or starts a call, or
ends one. -/
inductive Moves (c next : Config) : Prop
  | quiet (functions : next.env.functions = c.env.functions) (handles : next.env.handles = c.env.handles)
      (running : next.running = c.running)
  | define (d : Definition) (task : c.task = .eval d.toNode) (env : next.env = c.env.define d)
      (running : next.running = c.running)
  | call (name : String) (args : List Node) (d : Definition) (task : c.task = .eval (.call name args))
      (found : c.env.functions.get? name = some d) (env : next.env = (c.env.openCall name).beginCall d)
      (running : next.running = d :: c.running)
  | finish (d : Definition) (saved : Saved) (x : Float) (env : next.env = c.env.endCall d saved x)
      (running : c.running = d :: next.running)

theorem enter_moves (t : Node) (stack : List Frame) (env : Env) :
    Moves ⟨.eval t, stack, env⟩ (enter t stack env) := by
  cases t with
  | define id name ps body => exact .define ⟨id, name, ps, body⟩ rfl rfl rfl
  | call name args =>
    simp only [enter]
    cases found : env.functions.get? name with
    | none => exact .quiet rfl rfl rfl
    | some d => exact .call name args d rfl found rfl rfl
  | _ => exact .quiet rfl rfl rfl

theorem resume_moves (x : Float) (frame : Frame) (stack : List Frame) (env : Env) :
    Moves ⟨.give x, frame :: stack, env⟩ (resume x frame stack env) := by
  cases frame with
  | finish d saved => exact .finish d saved x rfl rfl
  | unary f =>
    simp only [resume]
    split <;> exact .quiet rfl rfl rfl
  | cond onTrue onFalse =>
    simp only [resume]
    split <;> exact .quiet rfl rfl rfl
  | _ => exact .quiet rfl rfl rfl

theorem step_moves {c next : Config} (one : step c = some next) : Moves c next := by
  obtain ⟨task, stack, env⟩ := c
  cases task with
  | eval t =>
    cases Option.some.inj one
    exact enter_moves t stack env
  | bind d saved params args =>
    cases params with
    | nil =>
      cases Option.some.inj one
      exact .quiet rfl rfl rfl
    | cons p ps => cases args <;> cases Option.some.inj one <;> exact .quiet rfl rfl rfl
  | give x =>
    cases stack with
    | nil => cases one
    | cons frame stack =>
      cases Option.some.inj one
      exact resume_moves x frame stack env

theorem step_define {c next : Config} {d : Definition} (task : c.task = .eval d.toNode)
    (one : step c = some next) : next.env = c.env.define d ∧ next.running = c.running := by
  obtain ⟨_, stack, env⟩ := c
  subst task
  cases Option.some.inj one
  exact ⟨rfl, rfl⟩

/-- A tree that is there after a step was there before, or was below one that was and does not define, or is the
body of a function that runs. -/
theorem step_trees {c next : Config} (one : step c = some next) {t : Node} (member : t ∈ next.trees) :
    t ∈ c.trees ∨ (∃ s ∈ c.trees, s.definition? = none ∧ t ∈ s.children) ∨ ∃ d ∈ c.running, t = d.body := by
  obtain ⟨task, stack, env⟩ := c
  cases task with
  | eval s =>
    cases Option.some.inj one
    have here : s ∈ (Config.mk (.eval s) stack env).trees := by simp [Config.trees, Task.trees]
    have waiting : ∀ u ∈ stack.flatMap Frame.trees, u ∈ (Config.mk (.eval s) stack env).trees := by
      intro u inside
      exact List.mem_append_right _ inside
    cases s with
    | call name args =>
      simp only [enter] at member
      cases found : env.functions.get? name with
      | none =>
        rw [found] at member
        exact Or.inl (waiting t (by simpa [Config.trees, Task.trees] using member))
      | some d =>
        rw [found] at member
        rcases List.mem_append.mp member with argument | inside
        · exact Or.inr (Or.inl ⟨_, here, rfl, argument⟩)
        · exact Or.inl (waiting t inside)
    | num | var | params | define =>
      exact Or.inl (waiting t (by simpa [Config.trees, Task.trees, enter] using member))
    | _ =>
      simp only [enter, Config.trees, Task.trees, Frame.trees, List.flatMap_cons, List.mem_append, List.mem_cons,
        List.not_mem_nil, or_false, false_or] at member
      grind [Node.definition?, Node.children, Config.trees, Task.trees]
  | bind d saved params args =>
    cases params with
    | nil =>
      cases Option.some.inj one
      rcases List.mem_append.mp member with body | inside
      · exact Or.inr (Or.inr ⟨d, by simp [Config.running, Task.held], by simpa [Task.trees] using body⟩)
      · exact Or.inl (List.mem_append_right _ (by simpa [Frame.trees] using inside))
    | cons p ps =>
      cases args with
      | nil =>
        cases Option.some.inj one
        exact Or.inl member
      | cons a as =>
        cases Option.some.inj one
        exact Or.inl (by simpa [Config.trees, Task.trees, Frame.trees] using member)
  | give x =>
    cases stack with
    | nil => cases one
    | cons frame stack =>
      cases Option.some.inj one
      refine Or.inl ?_
      cases frame with
      | cond onTrue onFalse =>
        simp only [resume] at member
        split at member
        · exact List.mem_append_right _ (List.mem_append_right _ member)
        · next branch chosen =>
          simp only [Config.trees, Task.trees, Frame.trees, List.flatMap_cons, List.mem_append, List.mem_cons,
            List.not_mem_nil, or_false, false_or, Option.mem_toList] at member ⊢
          split at chosen <;> grind
      | _ => simpa [resume, Config.trees, Task.trees, Frame.trees] using member

/-- Every tree that the machine has to do with has a property: those to be evaluated, and the bodies of functions,
be they registered or running. -/
structure Config.All (P : Node → Prop) (c : Config) : Prop where
  trees : ∀ t ∈ c.trees, P t
  running : ∀ d ∈ c.running, P d.body
  functions : ∀ name d, c.env.functions.get? name = some d → P d.body

/-- A property that passes from a tree to the trees right below it is kept by every step. -/
theorem Config.All.step {P : Node → Prop} (passes : ∀ t, P t → ∀ child ∈ t.children, P child) {c next : Config}
    (all : c.All P) (one : step c = some next) : next.All P where
  trees t member := by
    rcases step_trees one member with before | ⟨s, inside, _, child⟩ | ⟨d, runs, rfl⟩
    · exact all.trees t before
    · exact passes s (all.trees s inside) t child
    · exact all.running d runs
  running d member := by
    cases step_moves one with
    | quiet _ _ running => exact all.running d (running ▸ member)
    | define e _ _ running => exact all.running d (running ▸ member)
    | finish e saved x _ running => exact all.running d (running ▸ List.mem_cons_of_mem e member)
    | call name args e _ found _ running =>
      rcases List.mem_cons.mp (running ▸ member) with rfl | before
      · exact all.functions name d found
      · exact all.running d before
  functions name d found := by
    cases step_moves one with
    | quiet functions _ _ => exact all.functions name d (functions ▸ found)
    | call _ _ _ _ _ env _ => exact all.functions name d (by rw [env] at found; exact found)
    | finish _ _ _ env _ => exact all.functions name d (by rw [env] at found; exact found)
    | define e task env _ =>
      have made : e.toNode ∈ c.trees := by simp [Config.trees, task, Task.trees]
      rw [env, Env.functions_define, Table.get?_insert] at found
      split at found
      · cases found
        exact passes d.toNode (all.trees _ made) d.body (by simp [Definition.toNode, Node.children])
      · exact all.functions name d found

end Machine

end TreeCalc
