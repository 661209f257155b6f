import TreeCalc.Proofs.QuietRequests
import TreeCalc.Proofs.Trails

namespace TreeCalc

variable {α β : Type}

namespace Program

/-- What is written down while units are evaluated one after the other, the first of them having the given index. -/
def trailFrom (mark : Machine.Config → List α) (fuel index : Nat) : List Node → Env → List α
  | [], _ => []
  | t :: ts, env =>
    t.trail mark fuel (env.note (.enter (.unit index))) ++
      (evaluateSpan fuel index t env).elim [] fun r => trailFrom mark fuel (index + 1) ts r.2

/-- What is written down while a program is evaluated. -/
def trail (mark : Machine.Config → List α) (program : Program) (fuel : Nat) (env : Env) : List α :=
  trailFrom mark fuel 0 program.units.toList env

end Program

namespace Session

/-- What is written down while a tree is evaluated several times. -/
def trailTimes (mark : Machine.Config → List α) (fuel : Nat) (t : Node) : Nat → Env → List α
  | 0, _ => []
  | times + 1, env =>
    t.trail mark fuel env ++ (t.evaluate fuel env).elim [] fun r => trailTimes mark fuel t times r.2

/-- What is written down in the evaluations that a request asks for. -/
def trail (mark : Machine.Config → List α) (s : Session) (fuel : Nat) : Request → List α
  | .eval t times => trailTimes mark fuel (s.adopt t).1 times (s.adopt t).2.env
  | .evalList ts => (Node.ofList? ts).elim [] fun t => trailTimes mark fuel (s.adopt t).1 1 (s.adopt t).2.env
  | .evalAt source times => (s.find? source).elim [] fun t => trailTimes mark fuel t times s.env
  | .run => s.program.trail mark fuel s.env
  | .runUnit index => s.program.units[index]?.elim [] fun t => t.trail mark fuel (s.env.note (.enter (.unit index)))
  | _ => []

end Session

/-- What the trails of all trees have, the trails of a session's requests have too. -/
structure Everywhere (mark : Machine.Config → List α) (P : List α → Prop) : Prop where
  trail : ∀ (t : Node) fuel env, P (t.trail mark fuel env)
  nil : P []
  append : ∀ {front rest}, P front → P rest → P (front ++ rest)

namespace Everywhere
variable {mark : Machine.Config → List α} {P : List α → Prop}

theorem program (every : Everywhere mark P) (fuel index : Nat) (ts : List Node) (env : Env) :
    P (Program.trailFrom mark fuel index ts env) := by
  induction ts generalizing index env with
  | nil => exact every.nil
  | cons t ts ih =>
    refine every.append (every.trail t _ _) ?_
    cases Program.evaluateSpan fuel index t env with
    | none => exact every.nil
    | some r => exact ih (index + 1) r.2

theorem times (every : Everywhere mark P) (fuel : Nat) (t : Node) (times : Nat) (env : Env) :
    P (Session.trailTimes mark fuel t times env) := by
  induction times generalizing env with
  | zero => exact every.nil
  | succ times ih =>
    refine every.append (every.trail t _ _) ?_
    cases t.evaluate fuel env with
    | none => exact every.nil
    | some r => exact ih r.2

theorem session (every : Everywhere mark P) (s : Session) (fuel : Nat) (request : Request) :
    P (s.trail mark fuel request) := by
  cases request with
  | eval t times => exact every.times _ _ _ _
  | evalList ts =>
    simp only [Session.trail]
    cases Node.ofList? ts with
    | none => exact every.nil
    | some t => exact every.times _ _ _ _
  | evalAt source times =>
    simp only [Session.trail]
    cases s.find? source with
    | none => exact every.nil
    | some t => exact every.times _ _ _ _
  | run => exact every.program _ _ _ _
  | runUnit index =>
    simp only [Session.trail]
    cases s.program.units[index]? with
    | none => exact every.nil
    | some t => exact every.trail t _ _
  | _ => exact every.nil

end Everywhere

/-- A part of the environment that evaluations change as the marks of their steps say, and that depends neither on
the journal nor on the counts of handles. -/
structure Tracked (mark : Machine.Config → List α) (view : Env → β) (change : β → α → β) : Prop where
  evaluate : ∀ {t : Node} {fuel env x after}, t.evaluate fuel env = some (x, after) →
    view after = (t.trail mark fuel env).foldl change (view env)
  note : ∀ env entry, view (env.note entry) = view env
  uncounted : ∀ env, view env.uncounted = view env

namespace Tracked
variable {mark : Machine.Config → List α} {view : Env → β} {change : β → α → β}

/-- Environments that differ in counts of handles only have the same view. -/
theorem congr (tracked : Tracked mark view change) {env after : Env} (same : after.uncounted = env.uncounted) :
    view after = view env := by
  rw [← tracked.uncounted after, same, tracked.uncounted]

theorem evaluateSpan (tracked : Tracked mark view change) {fuel index : Nat} {t : Node} {env after : Env}
    {x : Float} (ends : Program.evaluateSpan fuel index t env = some (x, after)) :
    view after = (t.trail mark fuel (env.note (.enter (.unit index)))).foldl change (view env) := by
  simp only [Program.evaluateSpan, Option.bind_eq_bind, Option.bind_eq_some_iff, Prod.exists] at ends
  obtain ⟨y, middle, run, same⟩ := ends
  cases Option.some.inj same
  rw [tracked.note, tracked.note, tracked.evaluate run, tracked.note]

theorem evaluateFrom (tracked : Tracked mark view change) {fuel index : Nat} {ts : List Node} {x y : Float}
    {env after : Env} (ends : Program.evaluateFrom fuel index x ts env = some (y, after)) :
    view after = (Program.trailFrom mark fuel index ts env).foldl change (view env) := by
  induction ts generalizing index x env with
  | nil =>
    cases Option.some.inj ends
    rfl
  | cons t ts ih =>
    simp only [Program.evaluateFrom, Option.bind_eq_bind, Option.bind_eq_some_iff, Prod.exists] at ends
    obtain ⟨z, middle, first, rest⟩ := ends
    rw [ih rest, tracked.evaluateSpan first, Program.trailFrom, first, Option.elim_some, List.foldl_append]

theorem evalTimes (tracked : Tracked mark view change) {fuel times : Nat} {t : Node} {env after : Env}
    {xs : List Float} (ends : Session.evalTimes fuel t times env = some (xs, after)) :
    view after = (Session.trailTimes mark fuel t times env).foldl change (view env) := by
  induction times generalizing env xs with
  | zero =>
    cases Option.some.inj ends
    rfl
  | succ times ih =>
    simp only [Session.evalTimes, Option.bind_eq_bind, Option.bind_eq_some_iff, Prod.exists] at ends
    obtain ⟨x, middle, first, ys, last, rest, same⟩ := ends
    cases Option.some.inj same
    rw [ih rest, tracked.evaluate first, Session.trailTimes, first, Option.elim_some, List.foldl_append]

theorem evalOnce (tracked : Tracked mark view change) {s next : Session} {fuel times : Nat} {t : Node}
    {xs : List Float} (ends : s.evalOnce fuel t times = some (next, xs)) :
    view next.env =
      (Session.trailTimes mark fuel (s.adopt t).1 times (s.adopt t).2.env).foldl change (view s.env) := by
  simp only [Session.evalOnce, Option.bind_eq_bind, Option.bind_eq_some_iff, Prod.exists] at ends
  obtain ⟨ys, after, run, same⟩ := ends
  cases Option.some.inj same
  have adopted : view (s.adopt t).2.env = view s.env := tracked.congr rfl
  rw [← adopted, ← tracked.evalTimes run]
  exact tracked.congr rfl

/-- A request that asks for evaluations changes what is tracked as their trail says. -/
theorem serve (tracked : Tracked mark view change) {s next : Session} {fuel : Nat} {request : Request}
    {reply : Reply} (evaluates : request.evaluates = true) (served : s.serve fuel request = some (next, reply)) :
    view next.env = (s.trail mark fuel request).foldl change (view s.env) := by
  cases Session.serve_evaluated evaluates served with
  | eval ends => exact tracked.evalOnce ends
  | noList list =>
    simp only [Session.trail, list]
    rfl
  | evalList list ends =>
    simp only [Session.trail, list]
    exact tracked.evalOnce ends
  | noTree found =>
    simp only [Session.trail, found]
    rfl
  | evalAt found ends =>
    simp only [Session.trail, found]
    exact tracked.evalTimes ends
  | run ends => exact tracked.evaluateFrom ends
  | noUnit unit =>
    simp only [Session.trail, unit]
    rfl
  | runUnit unit ends =>
    simp only [Session.trail, unit]
    exact tracked.evaluateSpan ends

end Tracked

end TreeCalc
