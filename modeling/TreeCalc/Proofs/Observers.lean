import TreeCalc.Proofs.DisplayLog

namespace TreeCalc

/-- Two environments that evaluation cannot tell apart: they may differ in output and counters, in the handles
that are counted, and in the journal. -/
structure Env.Similar (env other : Env) : Prop where
  vars : env.vars = other.vars
  functions : env.functions = other.functions
  callDepth : env.callDepth = other.callDepth

namespace Env.Similar
variable {env other : Env} (similar : env.Similar other)
include similar

theorem read (name : String) : env.read name = other.read name := by
  rw [Env.read, Env.read, similar.vars]

theorem save (saved : Saved) (name : String) : env.save saved name = other.save saved name := by
  rw [Env.save, Env.save, similar.vars]

theorem assign (name : String) (x : Float) : (env.assign name x).Similar (other.assign name x) :=
  ⟨congrArg (·.insert name x) similar.vars, similar.functions, similar.callDepth⟩

theorem display (x : Float) : (env.display x).Similar (other.display x) :=
  ⟨similar.vars, similar.functions, similar.callDepth⟩

theorem define (d : Definition) : (env.define d).Similar (other.define d) := by
  refine ⟨?_, ?_, ?_⟩
  · rw [vars_define, vars_define, similar.vars]
  · rw [functions_define, functions_define, similar.functions]
  · have depth : ∀ env : Env, (env.define d).callDepth = env.callDepth := by
      intro env
      exact congrArg Watched.callDepth (env.watched_define d)
    rw [depth, depth, similar.callDepth]

theorem rejectCall (name : String) : (env.openCall name).rejectCall.Similar (other.openCall name).rejectCall :=
  ⟨similar.vars, similar.functions, similar.callDepth⟩

theorem beginCall (name : String) (d : Definition) :
    ((env.openCall name).beginCall d).Similar ((other.openCall name).beginCall d) :=
  ⟨similar.vars, similar.functions, congrArg (· + 1) similar.callDepth⟩

theorem endCall (d : Definition) (saved : Saved) (x : Float) :
    (env.endCall d saved x).Similar (other.endCall d saved x) := by
  have restored : (env.restore saved).vars = (other.restore saved).vars := by simp only [restore, similar.vars]
  exact ⟨restored, similar.functions, congrArg (· - 1) similar.callDepth⟩

end Env.Similar

namespace Machine

/-- The same is to be done, in environments that evaluation cannot tell apart. -/
structure Config.Similar (c d : Config) : Prop where
  task : c.task = d.task
  stack : c.stack = d.stack
  env : c.env.Similar d.env

theorem enter_similar {env other : Env} (similar : env.Similar other) (t : Node) (stack : List Frame) :
    (enter t stack env).Similar (enter t stack other) := by
  cases t with
  | var name => exact ⟨congrArg Task.give (similar.read name), rfl, similar⟩
  | define id name ps body => exact ⟨rfl, rfl, similar.define _⟩
  | call name args =>
    simp only [enter, similar.functions]
    cases other.functions.get? name with
    | none => exact ⟨rfl, rfl, similar.rejectCall name⟩
    | some d => exact ⟨rfl, rfl, similar.beginCall name d⟩
  | _ => exact ⟨rfl, rfl, similar⟩

theorem resume_similar {env other : Env} (similar : env.Similar other) (x : Float) (frame : Frame)
    (stack : List Frame) : (resume x frame stack env).Similar (resume x frame stack other) := by
  cases frame with
  | unary f =>
    refine ⟨rfl, rfl, ?_⟩
    simp only [resume]
    split
    · exact similar.display x
    · exact similar
  | assign name => exact ⟨rfl, rfl, similar.assign name x⟩
  | cond onTrue onFalse =>
    simp only [resume]
    split <;> exact ⟨rfl, rfl, similar⟩
  | bind d saved p ps args => exact ⟨rfl, rfl, similar.assign p x⟩
  | finish d saved => exact ⟨rfl, rfl, similar.endCall d saved x⟩
  | _ => exact ⟨rfl, rfl, similar⟩

theorem step_similar {c d : Config} (similar : c.Similar d) : Option.Rel Config.Similar (step c) (step d) := by
  obtain ⟨task, stack, env⟩ := c
  obtain ⟨_, _, other⟩ := d
  obtain ⟨rfl, rfl, similar⟩ := similar
  replace similar : env.Similar other := similar
  cases task with
  | eval t => exact .some (enter_similar similar t stack)
  | bind d saved params args =>
    cases params with
    | nil => exact .some ⟨rfl, rfl, similar⟩
    | cons p ps =>
      have same := similar.save saved p
      cases args with
      | nil => exact .some ⟨congrArg (Task.bind d · ps []) same, rfl, similar.assign p 0.0⟩
      | cons a as => exact .some ⟨rfl, congrArg (Frame.bind d · p ps as :: stack) same, similar⟩
  | give x =>
    cases stack with
    | nil => exact .none
    | cons frame stack => exact .some (resume_similar similar x frame stack)

theorem act_similar {c d : Config} (similar : c.Similar d) : c.act = d.act := by
  obtain ⟨task, stack, env⟩ := c
  obtain ⟨_, _, other⟩ := d
  obtain ⟨rfl, rfl, similar⟩ := similar
  have functions : env.functions = other.functions := similar.functions
  simp only [Config.act, functions]
  rfl

theorem lockstep_similar : Lockstep Config.Similar where
  step := step_similar
  act := act_similar
  give similar task := similar.task.symm.trans task

/-- From such environments the machine does the same step by step, and the same happens. -/
theorem run_similar (fuel : Nat) {c d : Config} (similar : c.Similar d) :
    Option.Rel (fun r q => r.1 = q.1 ∧ r.2.Similar q.2) (run fuel c.task c.stack c.env)
        (run fuel d.task d.stack d.env) ∧
      acts fuel c = acts fuel d := by
  obtain ⟨results, same⟩ := lockstep_similar.run fuel similar
  refine ⟨?_, same⟩
  generalize run fuel c.task c.stack c.env = r, run fuel d.task d.stack d.env = q at results ⊢
  cases results with
  | none => exact .none
  | some ended => exact .some ⟨ended.1, ended.2.env⟩

end Machine

/-- To observe an evaluation does not change it. In environments with the same variables, functions and depth of
calls, whatever their outputs and counters, a tree comes to its end in the same number of steps or in neither,
with the same value, and leaves the same variables, functions and depth. What is displayed is the same text,
whether it is captured or goes to standard output, and a silent output gains nothing. -/
theorem Node.evaluate_unobserved {env other : Env} (similar : env.Similar other) (t : Node) (fuel : Nat) :
    (t.evaluate fuel env).isSome = (t.evaluate fuel other).isSome ∧
    ∀ x y after later, t.evaluate fuel env = some (x, after) → t.evaluate fuel other = some (y, later) →
      x = y ∧ after.Similar later ∧ ∃ text, env.Gains after text ∧ other.Gains later text := by
  have start : (Machine.Config.mk (.eval t) [] env).Similar ⟨.eval t, [], other⟩ := ⟨rfl, rfl, similar⟩
  obtain ⟨results, same⟩ := Machine.run_similar fuel start
  replace results : Option.Rel (fun r q : Float × Env => r.1 = q.1 ∧ r.2.Similar q.2) (t.evaluate fuel env)
    (t.evaluate fuel other) := results
  constructor
  · generalize t.evaluate fuel env = r, t.evaluate fuel other = q at results ⊢
    cases results <;> rfl
  · intro x y after later left right
    rw [left, right] at results
    cases results with
    | some agree =>
      refine ⟨agree.1, agree.2, displayText (Act.shown (t.acts fuel env)), ?_, ?_⟩
      · exact .of_watched (evaluate_watched left)
      · have acts : t.acts fuel env = t.acts fuel other := same
        rw [acts]
        exact .of_watched (evaluate_watched right)

/-- What is displayed in a call is captured, counted and logged here, and goes to standard output there. -/
theorem Node.evaluate_unobserved_counting : ∃ x after later,
    (Node.call "countdown" [.num 2.0]).evaluate 60
      { output := ⟨.capture, "before\n"⟩, counters := some { displayWrites := 5 }, journal := some #[]
        functions := Table.empty.insert "countdown" Definition.countdown } = some (x, after) ∧
    (Node.call "countdown" [.num 2.0]).evaluate 60
      { output := ⟨.stdout, ""⟩, functions := Table.empty.insert "countdown" Definition.countdown } =
        some (x, later) ∧
    after.Similar later ∧ after.output.captured = "before\n" ++ later.output.printed := by
  let env : Env :=
    { output := ⟨.capture, "before\n"⟩, counters := some { displayWrites := 5 }, journal := some #[]
      functions := Table.empty.insert "countdown" Definition.countdown }
  let other : Env := { output := ⟨.stdout, ""⟩, functions := Table.empty.insert "countdown" Definition.countdown }
  have similar : env.Similar other := ⟨rfl, rfl, rfl⟩
  have ends : ((Node.call "countdown" [.num 2.0]).evaluate 60 env).isSome = true := by decide +kernel
  obtain ⟨alike, agree⟩ := evaluate_unobserved similar (.call "countdown" [.num 2.0]) 60
  obtain ⟨⟨x, after⟩, left⟩ := Option.isSome_iff_exists.mp ends
  obtain ⟨⟨y, later⟩, right⟩ := Option.isSome_iff_exists.mp (alike ▸ ends)
  obtain ⟨rfl, same, text, first, second⟩ := agree x y after later left right
  refine ⟨x, after, later, left, right, same, ?_⟩
  have printed : later.output.printed = "" ++ text := second.printed rfl
  rw [first.captured rfl, printed, String.empty_append]
  rfl

end TreeCalc
