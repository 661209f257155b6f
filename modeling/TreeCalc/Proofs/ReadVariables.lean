import Mathlib.Data.List.Forall2
import Mathlib.Data.Set.Defs
import TreeCalc.Proofs.DisplayLog
import TreeCalc.Proofs.Restoring

namespace TreeCalc

/-- Every variable in the tree, also in the body of a definition, has its name in the set. -/
def Node.ReadsOnly (S : Set String) (t : Node) : Prop := ∀ name, Node.var name ∈ t.subtrees → name ∈ S

theorem Node.ReadsOnly.child {S : Set String} (t : Node) (reads : t.ReadsOnly S) (child : Node)
    (member : child ∈ t.children) : child.ReadsOnly S :=
  fun name inside => reads name (mem_subtrees_of_child member inside)

/-- What the registered functions read has its name in the set. -/
def Env.ReadsOnly (S : Set String) (env : Env) : Prop :=
  ∀ function d, env.functions.get? function = some d → d.body.ReadsOnly S

/-- Two tables in which the names of the set have the same values, a name without one being worth zero. -/
def Table.AgreesOn (S : Set String) (vars other : Table Float) : Prop :=
  ∀ name ∈ S, (vars.get? name).getD 0.0 = (other.get? name).getD 0.0

/-- Bindings of the same names, which are worth the same for names of the set. -/
def Saved.AgreesOn (S : Set String) : Saved → Saved → Prop :=
  List.Forall₂ fun b c => b.1 = c.1 ∧ (b.1 ∈ S → b.2.getD 0.0 = c.2.getD 0.0)

variable {S : Set String}

namespace Table.AgreesOn
variable {vars other : Table Float}

theorem put (agree : vars.AgreesOn S other) {name : String} {binding same : Option Float}
    (worth : name ∈ S → binding.getD 0.0 = same.getD 0.0) :
    (vars.put name binding).AgreesOn S (other.put name same) := by
  intro read member
  rw [get?_put, get?_put]
  split
  · next here => exact worth (here ▸ member)
  · exact agree read member

theorem putBack (agree : vars.AgreesOn S other) {saved kept : Saved} (both : saved.AgreesOn S kept) :
    (saved.putBack vars).AgreesOn S (kept.putBack other) := by
  induction both generalizing vars other with
  | nil => exact agree
  | @cons b c saved kept first _ ih =>
    obtain ⟨name, binding⟩ := b
    obtain ⟨_, same⟩ := c
    obtain ⟨rfl, worth⟩ := first
    exact ih (agree.put worth)

end Table.AgreesOn

theorem Saved.AgreesOn.names {saved kept : Saved} (both : saved.AgreesOn S kept) : saved.names = kept.names := by
  induction both with
  | nil => rfl
  | cons first _ ih => exact congrArg₂ List.cons first.1 ih

/-- Two environments with the same functions, in which the variables of the set read the same. -/
structure Env.AgreesOn (S : Set String) (env other : Env) : Prop where
  functions : env.functions = other.functions
  read : ∀ name ∈ S, env.read name = other.read name

namespace Env.AgreesOn
variable {env other : Env} (agree : env.AgreesOn S other)
include agree

theorem vars : env.vars.AgreesOn S other.vars := agree.read

theorem assign (name : String) (x : Float) : (env.assign name x).AgreesOn S (other.assign name x) := by
  have assigned : (env.vars.put name (some x)).AgreesOn S (other.vars.put name (some x)) :=
    agree.vars.put fun _ => rfl
  exact ⟨agree.functions, assigned⟩

/-- One environment may save a value of zero where the other saves that there is none. -/
theorem save {saved kept : Saved} (both : saved.AgreesOn S kept) (name : String) :
    (env.save saved name).AgreesOn S (other.save kept name) := by
  by_cases member : name ∈ saved.names
  · rw [Env.save_of_mem env member, Env.save_of_mem other (both.names ▸ member)]
    exact both
  · rw [Env.save_of_notMem env member, Env.save_of_notMem other (both.names ▸ member)]
    -- Of a name outside the set nothing is known, and nothing is asked.
    exact List.rel_append both (.cons ⟨rfl, agree.vars name⟩ .nil)

theorem define (d : Definition) : (env.define d).AgreesOn S (other.define d) := by
  refine ⟨?_, ?_⟩
  · rw [functions_define, functions_define, agree.functions]
  · intro name member
    rw [Env.read, Env.read, vars_define, vars_define]
    exact agree.read name member

theorem endCall {saved kept : Saved} (both : saved.AgreesOn S kept) (d : Definition) (x : Float) :
    (env.endCall d saved x).AgreesOn S (other.endCall d kept x) :=
  ⟨agree.functions, agree.vars.putBack both⟩

end Env.AgreesOn

/-- The same is left to do with a value, and what calls saved agrees on the set. -/
inductive Frame.AgreesOn (S : Set String) : Frame → Frame → Prop
  | bind {d saved kept p ps args} : Saved.AgreesOn S saved kept →
      AgreesOn S (.bind d saved p ps args) (.bind d kept p ps args)
  | finish {d saved kept} : Saved.AgreesOn S saved kept → AgreesOn S (.finish d saved) (.finish d kept)
  | other {frame} : frame.held = [] → AgreesOn S frame frame

inductive Task.AgreesOn (S : Set String) : Task → Task → Prop
  | eval {t} : AgreesOn S (.eval t) (.eval t)
  | bind {d saved kept params args} : Saved.AgreesOn S saved kept →
      AgreesOn S (.bind d saved params args) (.bind d kept params args)
  | give {x} : AgreesOn S (.give x) (.give x)

theorem Task.AgreesOn.held {task again : Task} (same : task.AgreesOn S again) : task.held = again.held := by
  cases same <;> rfl

theorem Frame.AgreesOn.held {stack waiting : List Frame} (frames : List.Forall₂ (Frame.AgreesOn S) stack waiting) :
    stack.flatMap Frame.held = waiting.flatMap Frame.held := by
  induction frames with
  | nil => rfl
  | cons first _ ih =>
    rw [List.flatMap_cons, List.flatMap_cons, ih]
    cases first <;> rfl

namespace Machine

structure Config.AgreesOn (S : Set String) (c d : Config) : Prop where
  task : c.task.AgreesOn S d.task
  stack : List.Forall₂ (Frame.AgreesOn S) c.stack d.stack
  env : c.env.AgreesOn S d.env

variable {env other : Env} {stack waiting : List Frame}

theorem enter_agreesOn (agree : env.AgreesOn S other) (frames : List.Forall₂ (Frame.AgreesOn S) stack waiting)
    {t : Node} (reads : t.ReadsOnly S) : (enter t stack env).AgreesOn S (enter t waiting other) := by
  cases t with
  | var name =>
    have same : env.read name = other.read name := agree.read name (reads name (by simp [Node.subtrees]))
    simp only [enter, same]
    exact ⟨.give, frames, agree⟩
  | num | params => exact ⟨.give, frames, agree⟩
  | list => exact ⟨.eval, frames, agree⟩
  | define id name ps body => exact ⟨.give, frames, agree.define _⟩
  | call name args =>
    simp only [enter, agree.functions]
    cases other.functions.get? name with
    | none => exact ⟨.give, frames, agree.functions, agree.read⟩
    | some d => exact ⟨.bind .nil, frames, agree.functions, agree.read⟩
  | _ => exact ⟨.eval, .cons (.other rfl) frames, agree⟩

theorem resume_agreesOn (agree : env.AgreesOn S other) (frames : List.Forall₂ (Frame.AgreesOn S) stack waiting)
    (x : Float) {frame again : Frame} (same : frame.AgreesOn S again) :
    (resume x frame stack env).AgreesOn S (resume x again waiting other) := by
  cases same with
  | bind both => exact ⟨.bind both, frames, agree.assign _ x⟩
  | finish both => exact ⟨.give, frames, agree.endCall both _ x⟩
  | other idle =>
    cases frame with
    | bind | finish => cases idle
    | neg | arithRight | compareRight | binaryRight => exact ⟨.give, frames, agree⟩
    | assign name => exact ⟨.give, frames, agree.assign name x⟩
    | seq second => exact ⟨.eval, frames, agree⟩
    | unary f =>
      refine ⟨.give, frames, ?_⟩
      simp only [resume]
      split
      · exact ⟨agree.functions, agree.read⟩
      · exact agree
    | cond onTrue onFalse =>
      simp only [resume]
      split
      · exact ⟨.give, frames, agree⟩
      · exact ⟨.eval, frames, agree⟩
    | arithLeft | compareLeft | binaryLeft => exact ⟨.eval, .cons (.other rfl) frames, agree⟩

theorem step_agreesOn {c d : Config} (agree : c.AgreesOn S d) (reads : c.All (Node.ReadsOnly S)) :
    Option.Rel (Config.AgreesOn S) (step c) (step d) := by
  obtain ⟨task, stack, env⟩ := c
  obtain ⟨again, waiting, other⟩ := d
  obtain ⟨same, frames, agree⟩ := agree
  cases same with
  | eval => exact .some (enter_agreesOn agree frames (reads.trees _ (by simp [Config.trees, Task.trees])))
  | @bind d saved kept params args both =>
    cases params with
    | nil => exact .some ⟨.eval, .cons (.finish both) frames, agree⟩
    | cons p ps =>
      have more := agree.save both p
      cases args with
      | nil => exact .some ⟨.bind more, frames, agree.assign p 0.0⟩
      | cons a as => exact .some ⟨.eval, .cons (.bind more) frames, agree⟩
  | @give x =>
    cases frames with
    | nil => exact .none
    | cons first rest => exact .some (resume_agreesOn agree rest x first)

/-- The same functions are running. -/
theorem Config.AgreesOn.running {c d : Config} (agree : c.AgreesOn S d) : c.running = d.running := by
  rw [Config.running, Config.running, agree.task.held, Frame.AgreesOn.held agree.stack]

theorem act_agreesOn {c d : Config} (agree : c.AgreesOn S d) : c.act = d.act := by
  have running := agree.running
  obtain ⟨task, stack, env⟩ := c
  obtain ⟨again, waiting, other⟩ := d
  obtain ⟨same, frames, agree⟩ := agree
  have functions : env.functions = other.functions := agree.functions
  cases same with
  | bind => rfl
  | @eval t =>
    cases t with
    | call name args => simp only [Config.act, functions, running]
    | _ => rfl
  | give =>
    cases frames with
    | nil => rfl
    | @cons frame again stack waiting first rest =>
      cases first with
      | bind | finish => rfl
      | other idle =>
        cases frame with
        | unary f => cases f <;> rfl
        | _ => rfl

theorem lockstep_agreesOn (S : Set String) : Lockstep fun c d => c.AgreesOn S d ∧ c.All (Node.ReadsOnly S) where
  step := by
    rintro c d ⟨agree, reads⟩
    have both := step_agreesOn agree reads
    cases left : step c with
    | none =>
      rw [left] at both
      generalize step d = right at both
      cases both
      exact .none
    | some next =>
      rw [left] at both
      generalize step d = right at both
      cases both with
      | some later => exact .some ⟨later, reads.step Node.ReadsOnly.child left⟩
  act related := act_agreesOn related.1
  give := by
    rintro c d x ⟨agree, -⟩ task
    obtain ⟨_, _, _⟩ := c
    obtain ⟨_, _, _⟩ := d
    obtain ⟨same, -, -⟩ := agree
    subst task
    cases same
    rfl

end Machine

/-- So many calls were counted from one environment to another, in words of sixty-four bits. -/
def Env.Counts (env after : Env) (calls : Nat) : Prop :=
  after.counters.map (·.functionCalls) = env.counters.map (·.functionCalls + UInt64.ofNat calls)

theorem Env.Counts.of_watched {env after : Env} {acts : List Act}
    (watched : after.watched = acts.foldl Watched.record env.watched) :
    env.Counts after (Act.nestings acts).length := by
  rw [Watched.record_all] at watched
  have counters : after.counters = env.counters.map _ := congrArg Watched.counters watched
  rw [Env.Counts, counters, Option.map_map]
  rfl

/-- Evaluation depends on no other variables than those it reads, and takes a variable without a value for zero.
Let a set have the name of every variable in the tree and in the registered functions. Environments with the same
functions, in which the variables of the set read the same, are told apart neither by whether the tree comes to an
end, nor by its value, by what is displayed, by the functions it leaves or by the calls that are made, and the
variables of the set read the same afterwards. -/
theorem Node.evaluate_agreesOn {t : Node} {env other : Env} (tree : t.ReadsOnly S) (functions : env.ReadsOnly S)
    (agree : env.AgreesOn S other) (fuel : Nat) :
    (t.evaluate fuel env).isSome = (t.evaluate fuel other).isSome ∧ t.acts fuel env = t.acts fuel other ∧
    ∀ x y after later, t.evaluate fuel env = some (x, after) → t.evaluate fuel other = some (y, later) →
      x = y ∧ after.AgreesOn S later ∧ ∃ text calls,
        env.Gains after text ∧ other.Gains later text ∧ env.Counts after calls ∧ other.Counts later calls := by
  have reads : (Machine.Config.mk (.eval t) [] env).All (Node.ReadsOnly S) :=
    ⟨by simpa [Machine.Config.trees, Task.trees] using tree, by simp [Machine.Config.running, Task.held], functions⟩
  have start : (Machine.Config.mk (.eval t) [] env).AgreesOn S ⟨.eval t, [], other⟩ := ⟨.eval, .nil, agree⟩
  obtain ⟨results, acts⟩ := (Machine.lockstep_agreesOn S).run fuel ⟨start, reads⟩
  replace acts : t.acts fuel env = t.acts fuel other := acts
  replace results : Option.Rel _ (t.evaluate fuel env) (t.evaluate fuel other) := results
  refine ⟨?_, acts, ?_⟩
  · generalize t.evaluate fuel env = r, t.evaluate fuel other = q at results ⊢
    cases results <;> rfl
  · intro x y after later left right
    have watched := evaluate_watched left
    have again := evaluate_watched right
    rw [← acts] at again
    rw [left, right] at results
    cases results with
    | some ended =>
      refine ⟨ended.1, ended.2.1.env, displayText (Act.shown (t.acts fuel env)),
        (Act.nestings (t.acts fuel env)).length, ?_⟩
      exact ⟨.of_watched watched, .of_watched again, .of_watched watched, .of_watched again⟩

/-- A function that writes the variable `total`, which it never reads, and adds its parameter to `count`. -/
def Definition.accumulate : Definition :=
  ⟨0, "accumulate", ⟨"n", []⟩,
    .seq (.assign "total" (.var "n")) (.unary .display (.assign "count" (.arith .add (.var "count") (.var "n"))))⟩

/-- In one environment the parameter and the count are unset, in the other they are zero, and `total`, which is
not read, has some other value. So the call takes the parameter away in the one and sets it back to zero in the
other. -/
theorem Node.evaluate_agreesOn_accumulate : ∃ x after later,
    (Node.call "accumulate" [.num 3.0]).evaluate 40
      { output := ⟨.capture, ""⟩, counters := some {}, functions := Table.empty.insert "accumulate" .accumulate } =
        some (x, after) ∧
    (Node.call "accumulate" [.num 3.0]).evaluate 40
      { vars := ((Table.empty.insert "n" 0.0).insert "count" 0.0).insert "total" 8.0
        output := ⟨.capture, ""⟩, counters := some {}, functions := Table.empty.insert "accumulate" .accumulate } =
          some (x, later) ∧
    after.vars.get? "n" = none ∧ later.vars.get? "n" = some 0.0 ∧ after.output.captured = later.output.captured ∧
    after.read "count" = later.read "count" := by
  let env : Env :=
    { output := ⟨.capture, ""⟩, counters := some {}, functions := Table.empty.insert "accumulate" .accumulate }
  let other : Env := { env with vars := ((Table.empty.insert "n" 0.0).insert "count" 0.0).insert "total" 8.0 }
  let S : Set String := fun name => name = "n" ∨ name = "count"
  have tree : (Node.call "accumulate" [.num 3.0]).ReadsOnly S := by
    intro name occurs
    simp [Node.subtrees, Node.subtreesAll] at occurs
  have functions : env.ReadsOnly S := by
    intro function d found name occurs
    rw [Table.get?_insert] at found
    split at found
    · cases found
      have either : name = "n" ∨ name = "count" ∨ name = "n" := by
        simpa [Definition.accumulate, Node.subtrees] using occurs
      rcases either with rfl | rfl | rfl
      · exact Or.inl rfl
      · exact Or.inr rfl
      · exact Or.inl rfl
    · cases (Table.get?_empty function).symm.trans found
  have agree : env.AgreesOn S other := by
    refine ⟨rfl, ?_⟩
    rintro name (rfl | rfl)
    · rfl
    · rfl
  have left : ((Node.call "accumulate" [.num 3.0]).evaluate 40 env).map (fun r => r.2.vars.get? "n") =
      some none := by
    decide +kernel
  have right : ((Node.call "accumulate" [.num 3.0]).evaluate 40 other).map (fun r => r.2.vars.get? "n") =
      some (some 0.0) := by
    decide +kernel
  obtain ⟨⟨x, after⟩, first, unset⟩ := Option.map_eq_some_iff.mp left
  obtain ⟨⟨y, later⟩, second, zero⟩ := Option.map_eq_some_iff.mp right
  obtain ⟨-, -, same⟩ := Node.evaluate_agreesOn tree functions agree 40
  obtain ⟨rfl, still, text, calls, here, there, -⟩ := same x y after later first second
  refine ⟨x, after, later, first, second, unset, zero, ?_, still.read "count" (Or.inr rfl)⟩
  rw [here.captured rfl, there.captured rfl]

end TreeCalc
