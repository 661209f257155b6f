import TreeCalc.Proofs.Acts
import TreeCalc.Proofs.DebugText
import TreeCalc.Proofs.NodeEquality

namespace TreeCalc

/-- Two definitions that differ at most in identities. -/
structure Definition.Twin (d e : Definition) : Prop where
  name : d.name = e.name
  params : d.params = e.params
  body : d.body.Twin e.body

/-- Two environments with the same variables, and with functions that differ at most in identities. -/
structure Env.Twin (env other : Env) : Prop where
  vars : env.vars = other.vars
  functions : ∀ name, Option.Rel Definition.Twin (env.functions.get? name) (other.functions.get? name)

theorem Env.twin_self (env : Env) : env.Twin env := by
  refine ⟨rfl, fun name => ?_⟩
  cases env.functions.get? name with
  | none => exact .none
  | some d => exact .some ⟨rfl, rfl, d.body.twin_self⟩

namespace Env.Twin
variable {env other : Env} (twin : env.Twin other)
include twin

theorem read (name : String) : env.read name = other.read name := by
  rw [Env.read, Env.read, twin.vars]

theorem save (saved : Saved) (name : String) : env.save saved name = other.save saved name := by
  rw [Env.save, Env.save, twin.vars]

theorem assign (name : String) (x : Float) : (env.assign name x).Twin (other.assign name x) :=
  ⟨congrArg (·.insert name x) twin.vars, twin.functions⟩

theorem define {d e : Definition} (same : d.Twin e) : (env.define d).Twin (other.define e) := by
  refine ⟨?_, fun name => ?_⟩
  · rw [vars_define, vars_define, twin.vars]
  · rw [functions_define, functions_define, Table.get?_insert, Table.get?_insert, same.name]
    split
    · exact .some same
    · exact twin.functions name

theorem endCall (d e : Definition) (saved : Saved) (x : Float) :
    (env.endCall d saved x).Twin (other.endCall e saved x) := by
  have restored : (env.restore saved).vars = (other.restore saved).vars := by simp only [restore, twin.vars]
  exact ⟨restored, twin.functions⟩

end Env.Twin

/-- The same is left to do with a value, with trees and functions that differ at most in identities. -/
inductive Frame.Twin : Frame → Frame → Prop
  | neg : Twin .neg .neg
  | arithLeft {op s t} : s.Twin t → Twin (.arithLeft op s) (.arithLeft op t)
  | arithRight {op x} : Twin (.arithRight op x) (.arithRight op x)
  | compareLeft {op s t} : s.Twin t → Twin (.compareLeft op s) (.compareLeft op t)
  | compareRight {op x} : Twin (.compareRight op x) (.compareRight op x)
  | unary {f} : Twin (.unary f) (.unary f)
  | binaryLeft {f s t} : s.Twin t → Twin (.binaryLeft f s) (.binaryLeft f t)
  | binaryRight {f x} : Twin (.binaryRight f x) (.binaryRight f x)
  | assign {name} : Twin (.assign name) (.assign name)
  | cond {s₁ s₂ t₁ t₂} : Option.Rel Node.Twin s₁ t₁ → Option.Rel Node.Twin s₂ t₂ → Twin (.cond s₁ s₂) (.cond t₁ t₂)
  | seq {s t} : s.Twin t → Twin (.seq s) (.seq t)
  | bind {d e saved p ps ss ts} : d.Twin e → List.Forall₂ Node.Twin ss ts →
      Twin (.bind d saved p ps ss) (.bind e saved p ps ts)
  | finish {d e saved} : d.Twin e → Twin (.finish d saved) (.finish e saved)

theorem Frame.Twin.length_held {stack waiting : List Frame} (frames : List.Forall₂ Frame.Twin stack waiting) :
    (stack.flatMap Frame.held).length = (waiting.flatMap Frame.held).length := by
  induction frames with
  | nil => rfl
  | cons first _ ih =>
    rw [List.flatMap_cons, List.flatMap_cons, List.length_append, List.length_append, ih]
    cases first <;> rfl

inductive Task.Twin : Task → Task → Prop
  | eval {s t} : s.Twin t → Twin (.eval s) (.eval t)
  | bind {d e saved params ss ts} : d.Twin e → List.Forall₂ Node.Twin ss ts →
      Twin (.bind d saved params ss) (.bind e saved params ts)
  | give {x} : Twin (.give x) (.give x)

namespace Machine

structure Config.Twin (c d : Config) : Prop where
  task : c.task.Twin d.task
  stack : List.Forall₂ Frame.Twin c.stack d.stack
  env : c.env.Twin d.env

/-- As many calls are running. -/
theorem Config.Twin.length_running {c d : Config} (twin : c.Twin d) : c.running.length = d.running.length := by
  have held : ∀ {task again : Task}, task.Twin again → task.held.length = again.held.length := by
    intro task again tasks
    cases tasks <;> rfl
  rw [Config.running, Config.running, List.length_append, List.length_append, held twin.task,
    Frame.Twin.length_held twin.stack]

variable {env other : Env} {stack waiting : List Frame}

theorem enter_twin (envs : env.Twin other) (frames : List.Forall₂ Frame.Twin stack waiting) {t u : Node}
    (twin : t.Twin u) : (enter t stack env).Twin (enter u waiting other) := by
  cases twin with
  | num same =>
    cases same
    exact ⟨.give, frames, envs⟩
  | @var name =>
    simp only [enter, envs.read name]
    exact ⟨.give, frames, envs⟩
  | params => exact ⟨.give, frames, envs⟩
  | neg inside => exact ⟨.eval inside, .cons .neg frames, envs⟩
  | unary inside => exact ⟨.eval inside, .cons .unary frames, envs⟩
  | assign inside => exact ⟨.eval inside, .cons .assign frames, envs⟩
  | arith first second => exact ⟨.eval first, .cons (.arithLeft second) frames, envs⟩
  | compare first second => exact ⟨.eval first, .cons (.compareLeft second) frames, envs⟩
  | binary first second => exact ⟨.eval first, .cons (.binaryLeft second) frames, envs⟩
  | seq first second => exact ⟨.eval first, .cons (.seq second) frames, envs⟩
  | list first _ => exact ⟨.eval first, frames, envs⟩
  | cond test yes no => exact ⟨.eval test, .cons (.cond yes no) frames, envs⟩
  | define inside => exact ⟨.give, frames, envs.define ⟨rfl, rfl, inside⟩⟩
  | @call name _ _ args =>
    have found := envs.functions name
    simp only [enter]
    generalize env.functions.get? name = left, other.functions.get? name = right at found
    cases found with
    | none => exact ⟨.give, frames, envs.vars, envs.functions⟩
    | @some d e same =>
      dsimp only
      rw [same.params]
      exact ⟨.bind same args, frames, envs.vars, envs.functions⟩

theorem resume_twin (envs : env.Twin other) (frames : List.Forall₂ Frame.Twin stack waiting) (x : Float)
    {frame again : Frame} (twin : frame.Twin again) :
    (resume x frame stack env).Twin (resume x again waiting other) := by
  cases twin with
  | neg | arithRight | compareRight | binaryRight => exact ⟨.give, frames, envs⟩
  | arithLeft inside => exact ⟨.eval inside, .cons .arithRight frames, envs⟩
  | compareLeft inside => exact ⟨.eval inside, .cons .compareRight frames, envs⟩
  | binaryLeft inside => exact ⟨.eval inside, .cons .binaryRight frames, envs⟩
  | @assign name => exact ⟨.give, frames, envs.assign name x⟩
  | seq inside => exact ⟨.eval inside, frames, envs⟩
  | unary =>
    refine ⟨.give, frames, ?_⟩
    simp only [resume]
    split
    · exact ⟨envs.vars, envs.functions⟩
    · exact envs
  | @cond s₁ s₂ t₁ t₂ yes no =>
    have chosen : Option.Rel Node.Twin (if x != 0.0 then s₁ else s₂) (if x != 0.0 then t₁ else t₂) := by
      split
      · exact yes
      · exact no
    simp only [resume]
    generalize (if x != 0.0 then s₁ else s₂) = left, (if x != 0.0 then t₁ else t₂) = right at chosen
    cases chosen with
    | none => exact ⟨.give, frames, envs⟩
    | some inside => exact ⟨.eval inside, frames, envs⟩
  | bind same args => exact ⟨.bind same args, frames, envs.assign _ x⟩
  | @finish d e saved same => exact ⟨.give, frames, envs.endCall d e saved x⟩

theorem step_twin {c d : Config} (twin : c.Twin d) : Option.Rel Config.Twin (step c) (step d) := by
  obtain ⟨task, stack, env⟩ := c
  obtain ⟨again, waiting, other⟩ := d
  obtain ⟨tasks, frames, envs⟩ := twin
  replace envs : env.Twin other := envs
  cases tasks with
  | eval inside => exact .some (enter_twin envs frames inside)
  | @bind d e saved params ss ts same args =>
    cases params with
    | nil => exact .some ⟨.eval same.body, .cons (.finish same) frames, envs⟩
    | cons p ps =>
      have saves := envs.save saved p
      cases args with
      | nil =>
        simp only [step, saves]
        exact .some ⟨.bind same .nil, frames, envs.assign p 0.0⟩
      | cons first rest =>
        simp only [step, saves]
        exact .some ⟨.eval first, .cons (.bind same rest) frames, envs⟩
  | @give x =>
    cases frames with
    | nil => exact .none
    | cons first rest => exact .some (resume_twin envs rest x first)

theorem act_twin {c d : Config} (twin : c.Twin d) : c.act = d.act := by
  have running := twin.length_running
  obtain ⟨task, stack, env⟩ := c
  obtain ⟨again, waiting, other⟩ := d
  obtain ⟨tasks, frames, envs⟩ := twin
  cases tasks with
  | bind => rfl
  | eval inside =>
    cases inside with
    | @call name _ _ args =>
      have found := envs.functions name
      simp only [Config.act, running]
      dsimp only at found
      generalize env.functions.get? name = left, other.functions.get? name = right at found
      cases found <;> rfl
    | _ => rfl
  | give =>
    cases frames with
    | nil => rfl
    | cons first rest =>
      cases first with
      | @unary f => cases f <;> rfl
      | _ => rfl

theorem lockstep_twin : Lockstep Config.Twin where
  step := step_twin
  act := act_twin
  give := by
    intro c d x twin task
    obtain ⟨_, _, _⟩ := c
    obtain ⟨_, _, _⟩ := d
    obtain ⟨tasks, -, -⟩ := twin
    subst task
    cases tasks
    rfl

end Machine

namespace Node

/-- Twins come to an end with the same fuel or neither does, and what can be watched is the same. -/
theorem evaluate_twin {t u : Node} (twin : t.Twin u) (fuel : Nat) (env : Env) :
    Option.Rel (fun r q => r.1 = q.1 ∧ r.2.vars = q.2.vars ∧ r.2.output = q.2.output ∧ r.2.counters = q.2.counters)
      (t.evaluate fuel env) (u.evaluate fuel env) := by
  have start : (Machine.Config.mk (.eval t) [] env).Twin ⟨.eval u, [], env⟩ := ⟨.eval twin, .nil, env.twin_self⟩
  obtain ⟨results, acts⟩ := Machine.lockstep_twin.run fuel start
  replace acts : t.acts fuel env = u.acts fuel env := acts
  generalize first : t.evaluate fuel env = left, second : u.evaluate fuel env = right
  rw [show Machine.run fuel (.eval t) [] env = left from first,
    show Machine.run fuel (.eval u) [] env = right from second]
    at results
  cases results with
  | none => exact .none
  | @some r q ended =>
    -- `Env.Twin` says nothing of output and counters: both are told by the acts, which are the same.
    have watched : r.2.watched = q.2.watched := by rw [evaluate_watched first, evaluate_watched second, acts]
    exact .some ⟨ended.1, ended.2.env.vars, congrArg Watched.output watched, congrArg Watched.counters watched⟩

theorem trace_eq_of_twin {t u : Node} (twin : t.Twin u) (depth : Nat) : t.trace depth = u.trace depth := by
  have alike : t.LooksLike u := alike_of_numbers twin fun x _ y same => congrArg Number.general same
  rw [trace_eq, trace_eq, outline_eq_of_looksLike t u alike]

theorem debug_eq_of_twin {t u : Node} (twin : t.Twin u) : t.debug = u.debug :=
  debug_eq_of_sameContent t u (alike_of_numbers twin fun _ _ _ => Or.inl)

/-- Equality by content is symmetric and transitive, and holds between a tree and itself just when no NaN occurs
in it, be it in an argument or in the body of a definition. Equal trees have the same shape, names and operators,
and numbers that are equal as floats. If there is no zero among these, equal trees have the same trace and the
same debug text, and from the same environment they come to an end in the same number of steps or not at all, with
the same value, variables, output and counters. -/
theorem equality_by_content (t u v : Node) :
    (t == u) = (u == t) ∧
    ((t == u) = true → (u == v) = true → (t == v) = true) ∧
    ((t == t) = true ↔ ∀ x, num x ∈ t.subtrees → x.isNaN = false) ∧
    ((t == u) = true ↔ t.Equal u) ∧
    ((t == u) = true → (∀ x, num x ∈ t.subtrees → (x == 0.0) = false) →
      (∀ depth, t.trace depth = u.trace depth) ∧ t.debug = u.debug ∧
      ∀ fuel env,
        Option.Rel (fun r q => r.1 = q.1 ∧ r.2.vars = q.2.vars ∧ r.2.output = q.2.output ∧
          r.2.counters = q.2.counters) (t.evaluate fuel env) (u.evaluate fuel env)) := by
  refine ⟨same_comm t u, same_trans, same_self_iff t, same_iff_equal t u, fun equal nonzero => ?_⟩
  have twin : t.Twin u := twin_of_same equal nonzero
  exact ⟨trace_eq_of_twin twin, debug_eq_of_twin twin, evaluate_twin twin⟩

/-- A function that displays what it adds up, and a call of it. -/
def displayedSum (id : Nat) : Node :=
  .seq (.define id "f" ⟨"n", []⟩ (.unary .display (.arith .add (.var "n") (.num 1.5)))) (.call "f" [.num 2.5])

/-- The definition is made twice, by nodes of different identities, and both trees display the same line. With a
NaN in its body, a definition differs from itself. -/
theorem equality_by_content_displayedSum :
    (displayedSum 0 == displayedSum 7) = true ∧ (displayedSum 0).debug = (displayedSum 7).debug ∧
    (∃ r q, (displayedSum 0).evaluate 30 { output := ⟨.capture, ""⟩ } = some r ∧
      (displayedSum 7).evaluate 30 { output := ⟨.capture, ""⟩ } = some q ∧ r.1 = q.1 ∧
      r.2.output.captured = "= 4\n" ∧ q.2.output.captured = "= 4\n") ∧
    (define 0 "f" ⟨"n", []⟩ (.num Number.notANumber) == define 0 "f" ⟨"n", []⟩ (.num Number.notANumber)) =
      false := by
  have equal : (displayedSum 0 == displayedSum 7) = true := by decide +kernel
  have nonzero : ∀ x, num x ∈ (displayedSum 0).subtrees → (x == 0.0) = false := by
    intro x member
    simp only [displayedSum, subtrees, subtreesAll, List.cons_append, List.nil_append, List.append_nil,
      List.mem_cons, List.not_mem_nil, or_false, reduceCtorEq, false_or, num.injEq] at member
    rcases member with rfl | rfl <;> decide +kernel
  obtain ⟨-, -, -, -, same⟩ := equality_by_content (displayedSum 0) (displayedSum 7) (displayedSum 0)
  obtain ⟨-, texts, runs⟩ := same equal nonzero
  refine ⟨equal, texts, ?_, ?_⟩
  · have ends : ((displayedSum 0).evaluate 30 { output := ⟨.capture, ""⟩ }).map (·.2.output.captured) =
        some "= 4\n" := by
      decide +kernel
    obtain ⟨r, run, shown⟩ := Option.map_eq_some_iff.mp ends
    have both := runs 30 { output := ⟨.capture, ""⟩ }
    rw [run] at both
    generalize again : (displayedSum 7).evaluate 30 { output := ⟨.capture, ""⟩ } = right at both
    cases both with
    | @some _ q agree =>
      have written : q.2.output.captured = "= 4\n" := agree.2.2.1 ▸ shown
      exact ⟨r, q, run, rfl, agree.1, shown, written⟩
  · obtain ⟨-, -, self, -, -⟩ :=
      equality_by_content (define 0 "f" ⟨"n", []⟩ (.num Number.notANumber)) (.var "") (.var "")
    rw [Bool.eq_false_iff, Ne, self]
    exact fun numbers => absurd (numbers Number.notANumber (by simp [subtrees])) (by decide +kernel)

end Node

end TreeCalc
