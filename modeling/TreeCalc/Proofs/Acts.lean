import TreeCalc.Proofs.Trails

namespace TreeCalc

/-- What happens in an evaluation that output and counters show. -/
inductive Act where
  | display (x : Float)
  /-- A function that was found begins to run, with so many calls inside one another, its own included. Calls in the
  arguments of a call are inside it. -/
  | call (nesting : Nat)

namespace Act

def shown? : Act → Option Float
  | display x => some x
  | call _ => none

def nesting? : Act → Option Nat
  | display _ => none
  | call nesting => some nesting

/-- The displayed numbers in order. -/
def shown (acts : List Act) : List Float := acts.filterMap shown?

/-- The calls in order, each with its nesting. -/
def nestings (acts : List Act) : List Nat := acts.filterMap nesting?

/-- The depth that calls come to when it is counted from `base` on, or `old` when that is deeper. -/
def depth (base old : Nat) (acts : List Act) : Nat :=
  (nestings acts).foldl (fun depth nesting => max depth (base + nesting)) old

theorem nestings_append (acts more : List Act) : nestings (acts ++ more) = nestings acts ++ nestings more :=
  List.filterMap_append

end Act

/-- The part of an environment that an observer can watch: what was written, what was counted, and the depth on
which calls are counted. -/
structure Watched where
  output : Output
  counters : Option Counters
  callDepth : Nat

/-- How the watched part shows an act. -/
def Watched.record (w : Watched) : Act → Watched
  | .display x => { w with output := w.output.display x, counters := w.counters.map Counters.countDisplay }
  | .call nesting => { w with counters := w.counters.map (·.countCall (w.callDepth + nesting)) }

/-- Words count modulo two to the power of sixty-four. -/
theorem Counters.toNat_add_ofNat (word : UInt64) (n : Nat) :
    (word + UInt64.ofNat n).toNat = (word.toNat + n) % UInt64.size := by
  rw [UInt64.toNat_add, UInt64.toNat_ofNat', Nat.add_mod_mod]

namespace Watched

/-- All acts together: the displayed lines are written, and words and depth are counted up. -/
theorem record_all (acts : List Act) (w : Watched) :
    acts.foldl record w =
      { w with
        output := ((Act.shown acts).map displayLine).foldl Output.println w.output
        counters := w.counters.map fun c =>
          { functionCalls := c.functionCalls + UInt64.ofNat (Act.nestings acts).length
            displayWrites := c.displayWrites + UInt64.ofNat (Act.shown acts).length
            maxCallDepth := Act.depth w.callDepth c.maxCallDepth acts } } := by
  have next : ∀ (word : UInt64) (n : Nat), word + 1 + UInt64.ofNat n = word + UInt64.ofNat (n + 1) := by
    intro word n
    rw [UInt64.add_assoc, UInt64.ofNat_add, UInt64.add_comm (UInt64.ofNat n)]
    rfl
  induction acts generalizing w with
  | nil => simp [Act.shown, Act.nestings, Act.depth]
  | cons a acts ih =>
    rw [List.foldl_cons, ih]
    cases a with
    | display x =>
      have shown : Act.shown (.display x :: acts) = x :: Act.shown acts := rfl
      have nestings : Act.nestings (.display x :: acts) = Act.nestings acts := rfl
      simp only [record, shown, nestings, Act.depth, Output.display, Counters.countDisplay, Option.map_map,
        Function.comp_def, next, List.map_cons, List.foldl_cons, List.length_cons]
    | call nesting =>
      have shown : Act.shown (.call nesting :: acts) = Act.shown acts := rfl
      have nestings : Act.nestings (.call nesting :: acts) = nesting :: Act.nestings acts := rfl
      simp only [record, shown, nestings, Act.depth, Counters.countCall, Option.map_map, Function.comp_def, next,
        List.foldl_cons, List.length_cons]

end Watched

def Env.watched (env : Env) : Watched := ⟨env.output, env.counters, env.callDepth⟩

namespace Machine

/-- What happens in the step that the machine is about to do. -/
def Config.act (c : Config) : Option Act :=
  match c.task, c.stack with
  | .give x, .unary .display :: _ => some (.display x)
  | .eval (.call name _), _ => (c.env.functions.get? name).map fun _ => .call (c.running.length + 1)
  | _, _ => none

/-- What happens in at most `fuel` steps, in order. -/
def acts (fuel : Nat) (c : Config) : List Act := trail (fun c => c.act.toList) fuel c

/-- What a step does to the watched part and to the number of running calls. -/
inductive Observed (c next : Config) : Prop
  | quiet (act : c.act = none) (watched : next.env.watched = c.env.watched)
      (running : next.running.length = c.running.length)
  | display (x : Float) (act : c.act = some (.display x)) (env : next.env = c.env.display x)
      (running : next.running.length = c.running.length)
  | call (name : String) (d : Definition) (act : c.act = some (.call (c.running.length + 1)))
      (env : next.env = (c.env.openCall name).beginCall d) (running : next.running.length = c.running.length + 1)
  | finish (d : Definition) (saved : Saved) (x : Float) (act : c.act = none)
      (env : next.env = c.env.endCall d saved x) (running : c.running.length = next.running.length + 1)

end Machine

theorem Env.watched_define (env : Env) (d : Definition) : (env.define d).watched = env.watched := by
  simp only [define, setFunction]
  cases env.functions.get? d.name <;> rfl

namespace Machine

theorem enter_observed (t : Node) (stack : List Frame) (env : Env) :
    Observed ⟨.eval t, stack, env⟩ (enter t stack env) := by
  cases t with
  | define id name ps body => exact .quiet rfl (env.watched_define _) rfl
  | call name args =>
    have act : (Config.mk (.eval (.call name args)) stack env).act =
        (env.functions.get? name).map fun _ =>
          .call ((Config.mk (.eval (.call name args)) stack env).running.length + 1) :=
      rfl
    simp only [enter]
    cases found : env.functions.get? name with
    | none => exact .quiet (by rw [act, found, Option.map_none]) rfl rfl
    | some d => exact .call name d (by rw [act, found, Option.map_some]) rfl rfl
  | _ => exact .quiet rfl rfl rfl

theorem resume_observed (x : Float) (frame : Frame) (stack : List Frame) (env : Env) :
    Observed ⟨.give x, frame :: stack, env⟩ (resume x frame stack env) := by
  cases frame with
  | finish d saved => exact .finish d saved x rfl rfl rfl
  | unary f =>
    cases f with
    | display => exact .display x rfl rfl rfl
    | _ => exact .quiet rfl rfl rfl
  | cond onTrue onFalse =>
    simp only [resume]
    split <;> exact .quiet rfl rfl rfl
  | _ => exact .quiet rfl rfl rfl

theorem step_observed {c next : Config} (one : step c = some next) : Observed c next := by
  obtain ⟨task, stack, env⟩ := c
  cases task with
  | eval t =>
    cases Option.some.inj one
    exact enter_observed t stack env
  | bind d saved params args =>
    cases params with
    | nil =>
      cases Option.some.inj one
      exact .quiet rfl rfl rfl
    | cons p ps => cases args <;> cases Option.some.inj one <;> exact .quiet rfl rfl rfl
  | give x =>
    cases stack with
    | nil => cases one
    | cons frame stack =>
      cases Option.some.inj one
      exact resume_observed x frame stack env

/-- The depth of calls is `base` and one for every running call. -/
def Config.Level (base : Nat) (c : Config) : Prop := c.env.callDepth = base + c.running.length

theorem Config.Level.step {base : Nat} {c next : Config} (level : c.Level base) (one : step c = some next) :
    next.Level base := by
  unfold Config.Level at level ⊢
  cases step_observed one with
  | quiet _ watched running =>
    have same : next.env.callDepth = c.env.callDepth := congrArg Watched.callDepth watched
    omega
  | display x _ env running =>
    have same : next.env.callDepth = c.env.callDepth := by rw [env]; rfl
    omega
  | call name d _ env running =>
    have more : next.env.callDepth = c.env.callDepth + 1 := by rw [env]; rfl
    omega
  | finish d saved x _ env running =>
    have less : next.env.callDepth = c.env.callDepth - 1 := by rw [env]; rfl
    omega

theorem Config.Level.reaches {base : Nat} {c next : Config} (level : c.Level base) (path : Reaches c next) :
    next.Level base := by
  induction path with
  | refl => exact level
  | tail _ one ih => exact ih.step one

/-- The watched part in the middle of a run, with the depth that calls had at its start. -/
def Config.watched (base : Nat) (c : Config) : Watched := { c.env.watched with callDepth := base }

/-- The watched part changes as the act of a step says. -/
theorem step_watched {base : Nat} {c next : Config} (level : c.Level base) (one : step c = some next) :
    next.watched base = c.act.toList.foldl Watched.record (c.watched base) := by
  unfold Config.watched
  cases step_observed one with
  | quiet act watched _ => rw [act, watched]; rfl
  | display x act env _ => rw [act, env]; rfl
  | finish d saved x act env _ => rw [act, env]; rfl
  | call name d act env _ =>
    have depth : c.env.callDepth + 1 = base + (c.running.length + 1) := by
      rw [level]
      omega
    have counted : next.env.counters = c.env.counters.map (·.countCall (c.env.callDepth + 1)) := by rw [env]; rfl
    have written : next.env.output = c.env.output := by rw [env]; rfl
    rw [depth] at counted
    simp only [Env.watched, act, counted, written, Option.toList_some, List.foldl_cons, List.foldl_nil,
      Watched.record]

theorem acts_of_step {c next : Config} (one : step c = some next) (fuel : Nat) :
    acts (fuel + 1) c = c.act.toList ++ acts fuel next :=
  trail_of_step one fuel

theorem acts_of_ended {c : Config} (ended : step c = none) (fuel : Nat) : acts (fuel + 1) c = [] :=
  trail_of_ended ended fuel

/-- After a run the watched part shows all acts of it. No call runs any more, so the depth is again the one that the
acts are counted from. -/
theorem run_watched {fuel base : Nat} {c : Config} {x : Float} {after : Env} (level : c.Level base)
    (ends : run fuel c.task c.stack c.env = some (x, after)) :
    after.watched = (acts fuel c).foldl Watched.record (c.watched base) := by
  obtain ⟨final, changed⟩ := run_follows_of (Config.watched base) (fun _ _ level one => Config.Level.step level one)
    (fun _ _ level one => step_watched level one) level ends
  have idle : after.callDepth = base := final
  rw [acts, ← changed, Config.watched, ← idle]
  rfl

/-- A relation between configurations that steps keep, and under which the same happens and the same value comes
out. -/
structure Lockstep (R : Config → Config → Prop) : Prop where
  step {c d : Config} : R c d → Option.Rel R (step c) (step d)
  act {c d : Config} : R c d → c.act = d.act
  give {c d : Config} {x : Float} : R c d → c.task = .give x → d.task = .give x

/-- Two runs in lockstep end with the same fuel or neither does, in configurations that are still related, and the
same happens in both. -/
theorem Lockstep.run {R : Config → Config → Prop} (lock : Lockstep R) (fuel : Nat) {c d : Config}
    (related : R c d) :
    Option.Rel (fun r q => r.1 = q.1 ∧ R ⟨.give r.1, [], r.2⟩ ⟨.give q.1, [], q.2⟩) (run fuel c.task c.stack c.env)
      (run fuel d.task d.stack d.env) ∧ acts fuel c = acts fuel d := by
  induction fuel generalizing c d with
  | zero => exact ⟨by simp only [Machine.run]; exact .none, rfl⟩
  | succ fuel ih =>
    have both := lock.step related
    cases left : Machine.step c with
    | none =>
      cases right : Machine.step d with
      | some _ =>
        rw [left, right] at both
        cases both
      | none =>
        obtain ⟨x, task, stack⟩ := step_eq_none left
        obtain ⟨_, _, other⟩ := step_eq_none right
        have given := lock.give related task
        rw [acts_of_ended left, acts_of_ended right]
        obtain ⟨_, _, env⟩ := c
        obtain ⟨_, _, after⟩ := d
        subst task stack given other
        exact ⟨.some ⟨rfl, related⟩, rfl⟩
    | some next =>
      cases right : Machine.step d with
      | none =>
        rw [left, right] at both
        cases both
      | some other =>
        rw [left, right] at both
        cases both with
        | some later =>
          obtain ⟨results, same⟩ := ih later
          rw [run_of_step left, run_of_step right, acts_of_step left, acts_of_step right, lock.act related, same]
          exact ⟨results, rfl⟩

end Machine

/-- What happens while a tree is evaluated. -/
def Node.acts (t : Node) (fuel : Nat) (env : Env) : List Act := t.trail (fun c => c.act.toList) fuel env

theorem Node.evaluate_watched {t : Node} {fuel : Nat} {env after : Env} {x : Float}
    (ends : t.evaluate fuel env = some (x, after)) :
    after.watched = (t.acts fuel env).foldl Watched.record env.watched := by
  have level : (Machine.Config.mk (.eval t) [] env).Level env.callDepth := rfl
  exact Machine.run_watched level ends

end TreeCalc
