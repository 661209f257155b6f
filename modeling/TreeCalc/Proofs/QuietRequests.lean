import TreeCalc.Session

namespace TreeCalc

/-- All of an environment but the counts of its handles. -/
def Env.uncounted (env : Env) : Env := { env with handles := {} }

/-- Requests that ask for evaluations. -/
def Request.evaluates : Request → Bool
  | .eval .. | .evalList _ | .evalAt .. | .run | .runUnit _ => true
  | _ => false

/-- Requests that ask for no evaluation and change neither a table nor the output. -/
def Request.quiet : Request → Bool
  | .eval .. | .evalList _ | .evalAt .. | .run | .runUnit _ | .set .. | .remove _ | .clearVariables | .seed _
  | .clearFunctions | .register .. | .clearOutput | .print _ => false
  | _ => true

namespace Session

theorem adoptAll_uncounted (s : Session) (ts : List Node) : (s.adoptAll ts).2.env.uncounted = s.env.uncounted := by
  refine List.foldlRecOn (motive := fun state : Array Node × Session => state.2.env.uncounted = s.env.uncounted)
    ts _ rfl ?_
  intro state same t _
  exact same

theorem clearProgram_uncounted (s : Session) : s.clearProgram.env.uncounted = s.env.uncounted := by
  rw [clearProgram, ← Array.foldl_toList]
  refine List.foldlRecOn (motive := fun left : Session => left.env.uncounted = s.env.uncounted) _ _ rfl ?_
  intro left same t _
  exact same

theorem withSlot_uncounted {s : Session} {answer : Definition → Session × Reply}
    (each : ∀ d, (answer d).1.env.uncounted = s.env.uncounted) (slot : String) :
    (s.withSlot slot answer).1.env.uncounted = s.env.uncounted := by
  unfold withSlot
  split
  · rfl
  · exact each _

/-- A quiet request changes nothing of the environment but the counts of handles. -/
theorem serve_quiet {s next : Session} {fuel : Nat} {request : Request} {reply : Reply}
    (quiet : request.quiet = true) (served : s.serve fuel request = some (next, reply)) :
    next.env.uncounted = s.env.uncounted := by
  cases request with
  | extend ts =>
    obtain rfl := congrArg Prod.fst (Option.some.inj served)
    exact s.adoptAll_uncounted ts
  | collect ts =>
    obtain rfl := congrArg Prod.fst (Option.some.inj served)
    exact (clearProgram_uncounted _).trans (s.adoptAll_uncounted ts)
  | clear =>
    cases Option.some.inj served
    exact s.clearProgram_uncounted
  | collectTrees places =>
    cases Option.some.inj served
    exact clearProgram_uncounted _
  | hold | graft | enclose | pick =>
    simp only [serve] at served
    split at served <;> cases Option.some.inj served <;> rfl
  | copy slot source =>
    obtain rfl : (s.withSlot source (s.keep slot)).1 = next := congrArg Prod.fst (Option.some.inj served)
    refine withSlot_uncounted (fun d => ?_) source
    rfl
  | handles slot | describe slot | debugSlot slot | wrap place slot =>
    obtain rfl := congrArg Prod.fst (Option.some.inj served)
    refine withSlot_uncounted (fun d => ?_) slot
    rfl
  | same left right =>
    obtain rfl := congrArg Prod.fst (Option.some.inj served)
    refine withSlot_uncounted (fun d => withSlot_uncounted (fun e => ?_) right) left
    rfl
  | eval | evalList | evalAt | run | runUnit | set | remove | clearVariables | seed | clearFunctions | register
  | clearOutput | print =>
    cases quiet
  | _ =>
    cases Option.some.inj served
    rfl

/-- What comes of a request that asks for evaluations: the session stays as it is when there is nothing to evaluate,
and otherwise the evaluation has ended. -/
inductive Evaluated (s : Session) (fuel : Nat) : Request → Session → Prop
  | eval {t : Node} {times : Nat} {next : Session} {xs : List Float}
      (ends : s.evalOnce fuel t times = some (next, xs)) : Evaluated s fuel (.eval t times) next
  | noList {ts : List Node} (list : Node.ofList? ts = none) : Evaluated s fuel (.evalList ts) s
  | evalList {ts : List Node} {t : Node} {next : Session} {xs : List Float} (list : Node.ofList? ts = some t)
      (ends : s.evalOnce fuel t 1 = some (next, xs)) : Evaluated s fuel (.evalList ts) next
  | noTree {source : Source} {times : Nat} (found : s.find? source = none) :
      Evaluated s fuel (.evalAt source times) s
  | evalAt {source : Source} {times : Nat} {t : Node} {xs : List Float} {after : Env}
      (found : s.find? source = some t) (ends : evalTimes fuel t times s.env = some (xs, after)) :
      Evaluated s fuel (.evalAt source times) { s with env := after }
  | run {x : Float} {after : Env} (ends : s.program.evaluateAll fuel s.env = some (x, after)) :
      Evaluated s fuel .run { s with env := after }
  | noUnit {index : Nat} (unit : s.program.units[index]? = none) : Evaluated s fuel (.runUnit index) s
  | runUnit {index : Nat} {t : Node} {x : Float} {after : Env} (unit : s.program.units[index]? = some t)
      (ends : Program.evaluateSpan fuel index t s.env = some (x, after)) :
      Evaluated s fuel (.runUnit index) { s with env := after }

theorem serve_evaluated {s next : Session} {fuel : Nat} {request : Request} {reply : Reply}
    (evaluates : request.evaluates = true) (served : s.serve fuel request = some (next, reply)) :
    s.Evaluated fuel request next := by
  cases request with
  | eval t times =>
    simp only [serve, Option.bind_eq_bind, Option.bind_eq_some_iff, Prod.exists] at served
    obtain ⟨after, xs, ends, same⟩ := served
    cases Option.some.inj same
    exact .eval ends
  | evalList ts =>
    cases list : Node.ofList? ts with
    | none =>
      simp only [serve, list] at served
      cases Option.some.inj served
      exact .noList list
    | some t =>
      simp only [serve, list, Option.bind_eq_bind, Option.bind_eq_some_iff, Prod.exists] at served
      obtain ⟨after, xs, ends, same⟩ := served
      cases Option.some.inj same
      exact .evalList list ends
  | evalAt source times =>
    cases found : s.find? source with
    | none =>
      simp only [serve, found] at served
      cases Option.some.inj served
      exact .noTree found
    | some t =>
      simp only [serve, found, Option.bind_eq_bind, Option.bind_eq_some_iff, Prod.exists] at served
      obtain ⟨xs, after, ends, same⟩ := served
      cases Option.some.inj same
      exact .evalAt found ends
  | run =>
    simp only [serve, Option.bind_eq_bind, Option.bind_eq_some_iff, Prod.exists] at served
    obtain ⟨x, after, ends, same⟩ := served
    cases Option.some.inj same
    exact .run ends
  | runUnit index =>
    cases unit : s.program.units[index]? with
    | none =>
      simp only [serve, Program.evaluateUnit, unit] at served
      cases Option.some.inj served
      exact .noUnit unit
    | some t =>
      simp only [serve, Program.evaluateUnit, unit, Option.bind_eq_bind, Option.bind_eq_some_iff,
        Prod.exists] at served
      obtain ⟨x, after, ends, same⟩ := served
      cases Option.some.inj same
      exact .runUnit unit ends
  | _ => cases evaluates

end Session

end TreeCalc
