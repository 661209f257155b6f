import TreeCalc.Proofs.JournalRecords
import TreeCalc.Proofs.Acts
import TreeCalc.Proofs.Moments

namespace TreeCalc

/-- How many calls were counted, if any are. -/
def Env.callCount (env : Env) : Option UInt64 := env.counters.map (·.functionCalls)

/-- What was noted from one environment to another, and how it goes with the depth of calls and with their
number. -/
structure Env.Notes (env after : Env) (log : List Record) : Prop where
  nested : Nested env.callDepth log
  noted : after.noted = env.noted.map (· ++ Record.entriesAll log)
  depth : after.callDepth = env.callDepth
  calls : after.callCount = env.callCount.map (· + UInt64.ofNat ((Record.entriesAll log).countP Entry.returns))

namespace Env.Notes

theorem nothing {env after : Env} (noted : after.noted = env.noted) (depth : after.callDepth = env.callDepth)
    (calls : after.callCount = env.callCount) : env.Notes after [] := by
  refine ⟨.nil, ?_, depth, ?_⟩
  · simp [noted, Record.entriesAll]
  · simp [calls, Record.entriesAll]

theorem trans {env middle after : Env} {log more : List Record} (first : env.Notes middle log)
    (second : middle.Notes after more) : env.Notes after (log ++ more) := by
  refine ⟨first.nested.append (first.depth ▸ second.nested), ?_, second.depth.trans first.depth, ?_⟩
  · rw [second.noted, first.noted, map_append_append, Record.entriesAll_append]
  · rw [second.calls, first.calls, Option.map_map, Record.entriesAll_append, List.countP_append, UInt64.ofNat_add]
    exact congrArg (fun f => env.callCount.map f) (funext fun word => UInt64.add_assoc word _ _)

theorem assign (env : Env) (name : String) (x : Float) : env.Notes (env.assign name x) [] := nothing rfl rfl rfl

theorem display (env : Env) (x : Float) : env.Notes (env.display x) [] := by
  refine nothing rfl rfl ?_
  simp only [callCount, Env.display, Option.map_map]
  rfl

theorem define (env : Env) (d : Definition) : ∃ log, env.Notes (env.define d) log := by
  obtain ⟨e, registers, noted⟩ := env.exists_noted_define d
  have watched := env.watched_define d
  have silent : Entry.returns (.event e) = false := by
    cases e <;> first | rfl | cases registers
  refine ⟨[.event e], .registers registers .nil, noted, congrArg Watched.callDepth watched, ?_⟩
  have same : (env.define d).callCount = env.callCount :=
    congrArg (Option.map fun k : Counters => k.functionCalls) (congrArg Watched.counters watched)
  simp [same, Record.entriesAll, Record.entries, silent]

theorem unknown (env : Env) (name : String) :
    env.Notes (env.openCall name).rejectCall [.span (.call env.callDepth name) [.event .undefinedCall]] := by
  refine ⟨.unknown .nil, ?_, rfl, ?_⟩
  · have opened : (env.openCall name).noted = env.noted.map (· ++ [.enter (.call env.callDepth name)]) :=
      env.noted_note _
    rw [noted_rejectCall, opened, map_append_append]
    rfl
  · have none :
        (Record.entriesAll [.span (.call env.callDepth name) [.event .undefinedCall]]).countP Entry.returns = 0 :=
      rfl
    have counters : (env.openCall name).rejectCall.callCount = env.callCount := rfl
    rw [none, counters]
    simp

/-- The span of a call that found its function, put together from what its arguments and its body noted. -/
theorem call {env middle last : Env} {name : String} {d : Definition} {log more : List Record} (saved : Saved)
    (x : Float) (binding : ((env.openCall name).beginCall d).Notes middle log) (body : middle.Notes last more) :
    env.Notes (last.endCall d saved x)
      [.span (.call env.callDepth name) (.event .enteringBody :: (log ++ more ++ [.event (.callReturned x)]))] := by
  have both := binding.trans body
  have deeper : ((env.openCall name).beginCall d).callDepth = env.callDepth + 1 := rfl
  refine ⟨.call (deeper ▸ both.nested) .nil, ?_, ?_, ?_⟩
  · rw [noted_endCall, both.noted, noted_beginCall, map_append_append, map_append_append, Record.entriesAll_call]
  · have ended : (last.endCall d saved x).callDepth = last.callDepth - 1 := rfl
    have depth := both.depth
    omega
  · have begun : ((env.openCall name).beginCall d).callCount = env.callCount.map (· + 1) := by
      simp only [callCount, beginCall, Option.map_map]
      rfl
    have ended : (last.endCall d saved x).callCount = last.callCount := rfl
    have one : (Record.entriesAll [.span (.call env.callDepth name)
        (.event .enteringBody :: (log ++ more ++ [.event (.callReturned x)]))]).countP Entry.returns =
        1 + (Record.entriesAll (log ++ more)).countP Entry.returns := by
      rw [Record.entriesAll_call, List.countP_append, List.countP_append, Nat.add_comm 1]
      exact Nat.zero_add _
    rw [ended, both.calls, begun, Option.map_map, one, UInt64.ofNat_add]
    exact congrArg (fun f => env.callCount.map f) (funext fun word => UInt64.add_assoc word 1 _)

end Env.Notes

/-- A run of the rules notes a well nested log. -/
theorem Derives.notes {job : Job} {env after : Env} (run : Derives job env after) : ∃ log, env.Notes after log := by
  induction run with
  | num | var | params | done => exact ⟨[], .nothing rfl rfl rfl⟩
  | @define id name ps body env => exact Env.Notes.define env ⟨id, name, ps, body⟩
  | @unknown name args env missing => exact ⟨_, .unknown env name⟩
  | neg _ ih | unary _ _ ih | list _ ih | skip _ _ ih => exact ih
  | @display t x env after _ ih =>
    obtain ⟨log, notes⟩ := ih
    exact ⟨_, notes.trans (.display after x)⟩
  | @assign name t x env after _ ih =>
    obtain ⟨log, notes⟩ := ih
    exact ⟨_, notes.trans (.assign after name x)⟩
  | arith _ _ left right | compare _ _ left right | binary _ _ left right | seq _ _ left right
    | branch _ _ _ left right =>
    obtain ⟨log, first⟩ := left
    obtain ⟨more, second⟩ := right
    exact ⟨_, first.trans second⟩
  | @call name args d bound x env middle after found _ _ binding body =>
    obtain ⟨log, first⟩ := binding
    obtain ⟨more, second⟩ := body
    exact ⟨_, .call bound x first second⟩
  | @missing p ps saved bound env after _ ih =>
    obtain ⟨log, notes⟩ := ih
    exact ⟨_, (Env.Notes.assign env p 0.0).trans notes⟩
  | @argument p ps a as saved bound x env middle after _ _ argument rest =>
    obtain ⟨log, first⟩ := argument
    obtain ⟨more, second⟩ := rest
    exact ⟨_, first.trans ((Env.Notes.assign middle p x).trans second)⟩

namespace Machine

/-- What a step of the machine notes, and what it does to the number of running calls. -/
inductive Noting (c next : Config) : List Entry → Prop
  | nothing (running : next.running.length = c.running.length) : Noting c next []
  | registers (e : Event) (registers : e.registers = true) (running : next.running.length = c.running.length) :
      Noting c next [.event e]
  | unknown (name : String) (args : List Node) (task : c.task = .eval (.call name args))
      (running : next.running.length = c.running.length) :
      Noting c next [.enter (.call c.env.callDepth name), .event .undefinedCall, .exit .call]
  | call (name : String) (args : List Node) (task : c.task = .eval (.call name args))
      (running : next.running.length = c.running.length + 1) :
      Noting c next [.enter (.call c.env.callDepth name), .event .enteringBody]
  | finish (x : Float) (running : c.running.length = next.running.length + 1) :
      Noting c next [.event (.callReturned x), .exit .call]

theorem exists_noting_nothing {c next : Config} (noted : next.env.noted = c.env.noted)
    (running : next.running.length = c.running.length) :
    ∃ entries, Noting c next entries ∧ next.env.noted = c.env.noted.map (· ++ entries) :=
  ⟨[], .nothing running, by simp [noted]⟩

theorem enter_noting (t : Node) (stack : List Frame) (env : Env) :
    ∃ entries, Noting ⟨.eval t, stack, env⟩ (enter t stack env) entries ∧
      (enter t stack env).env.noted = env.noted.map (· ++ entries) := by
  cases t with
  | define id name ps body =>
    obtain ⟨e, registers, noted⟩ := env.exists_noted_define ⟨id, name, ps, body⟩
    exact ⟨_, .registers e registers rfl, noted⟩
  | call name args =>
    simp only [enter]
    cases env.functions.get? name with
    | none =>
      have opened : (env.openCall name).noted = env.noted.map (· ++ [.enter (.call env.callDepth name)]) :=
        env.noted_note _
      refine ⟨_, .unknown name args rfl rfl, ?_⟩
      rw [Env.noted_rejectCall, opened, Env.map_append_append]
      rfl
    | some d => exact ⟨_, .call name args rfl rfl, env.noted_beginCall name d⟩
  | _ => exact exists_noting_nothing rfl rfl

theorem resume_noting (x : Float) (frame : Frame) (stack : List Frame) (env : Env) :
    ∃ entries, Noting ⟨.give x, frame :: stack, env⟩ (resume x frame stack env) entries ∧
      (resume x frame stack env).env.noted = env.noted.map (· ++ entries) := by
  cases frame with
  | finish d saved => exact ⟨_, .finish x rfl, env.noted_endCall d saved x⟩
  | unary f =>
    simp only [resume]
    split <;> exact exists_noting_nothing rfl rfl
  | cond onTrue onFalse =>
    simp only [resume]
    split <;> exact exists_noting_nothing rfl rfl
  | _ => exact exists_noting_nothing rfl rfl

theorem step_noting {c next : Config} (one : step c = some next) :
    ∃ entries, Noting c next entries ∧ next.env.noted = c.env.noted.map (· ++ entries) := by
  obtain ⟨task, stack, env⟩ := c
  cases task with
  | eval t =>
    cases Option.some.inj one
    exact enter_noting t stack env
  | bind d saved params args =>
    cases params with
    | nil =>
      cases Option.some.inj one
      exact exists_noting_nothing rfl rfl
    | cons p ps => cases args <;> cases Option.some.inj one <;> exact exists_noting_nothing rfl rfl
  | give x =>
    cases stack with
    | nil => cases one
    | cons frame stack =>
      cases Option.some.inj one
      exact resume_noting x frame stack env

/-- A step that opens a span sets out to evaluate a call, and notes nothing before. -/
theorem Noting.opens {c next : Config} {entries front back : List Entry} {depth : Nat} {name : String}
    (noting : Noting c next entries) (split : entries = front ++ .enter (.call depth name) :: back) :
    front = [] ∧ c.env.callDepth = depth ∧ ∃ args, c.task = .eval (.call name args) := by
  cases noting with
  | nothing => simp at split
  | registers => simp [List.cons_eq_append_iff] at split
  | finish => simp [List.cons_eq_append_iff] at split
  | unknown called args task running | call called args task running =>
    cases front with
    | nil =>
      cases split
      exact ⟨rfl, rfl, args, task⟩
    | cons entry front => simp [List.cons_eq_append_iff] at split

/-- The calls that run are those whose spans were opened and not closed. -/
theorem Noting.running_eq {c next : Config} {entries : List Entry} (noting : Noting c next entries) :
    c.running.length + entries.countP Entry.opensCall = next.running.length + entries.countP Entry.closesCall := by
  cases noting with
  | nothing running | registers _ _ running | unknown _ _ _ running | call _ _ _ running | finish _ running =>
    simp [List.countP_cons, Entry.opensCall, Entry.closesCall, running]

/-- What a run has noted between two configurations. Of the spans of calls opened there, those are still open
whose calls run. -/
structure Tells (start c : Config) (entries : List Entry) : Prop where
  noted : c.env.noted = start.env.noted.map (· ++ entries)
  running : start.running.length + entries.countP Entry.opensCall =
    c.running.length + entries.countP Entry.closesCall

theorem Tells.step {start c next : Config} {entries more : List Entry} (tells : Tells start c entries)
    (noting : Noting c next more) (noted : next.env.noted = c.env.noted.map (· ++ more)) :
    Tells start next (entries ++ more) := by
  refine ⟨by rw [noted, tells.noted, Env.map_append_append], ?_⟩
  have before := tells.running
  have now := noting.running_eq
  rw [List.countP_append, List.countP_append]
  omega

theorem mem_front_or_back {α : Type} {front back before after : List α} {a : α}
    (split : front ++ back = before ++ a :: after) :
    (∃ rest, front = before ++ a :: rest) ∨ ∃ rest, before = front ++ rest ∧ back = rest ++ a :: after := by
  rcases List.append_eq_append_iff.mp split with ⟨rest, later, inside⟩ | ⟨rest, earlier, inside⟩
  · exact Or.inr ⟨rest, later, inside⟩
  · cases rest with
    | nil => exact Or.inr ⟨[], by simpa using earlier.symm, inside.symm⟩
    | cons b rest =>
      cases inside
      exact Or.inl ⟨rest, earlier⟩

/-- Every span of a call in what a run has noted was opened when the run set out to evaluate that call. -/
theorem Reaches.tells {start c : Config} (path : Reaches start c) :
    ∃ entries, Tells start c entries ∧
      ∀ front depth name back, entries = front ++ .enter (.call depth name) :: back →
        ∃ args stack env, Reaches start ⟨.eval (.call name args), stack, env⟩ ∧
          Tells start ⟨.eval (.call name args), stack, env⟩ front ∧ env.callDepth = depth := by
  induction path with
  | refl =>
    refine ⟨[], ⟨by simp, rfl⟩, ?_⟩
    intro front depth name back split
    simp at split
  | @tail c next path one ih =>
    obtain ⟨entries, tells, earlier⟩ := ih
    obtain ⟨more, noting, noted⟩ := step_noting one
    refine ⟨entries ++ more, tells.step noting noted, ?_⟩
    intro front depth name back split
    rcases mem_front_or_back split with ⟨rest, before⟩ | ⟨rest, rfl, inside⟩
    · exact earlier front depth name rest before
    · -- The span is opened by the last step.
      obtain ⟨rfl, level, args, task⟩ := noting.opens inside
      obtain ⟨_, stack, env⟩ := c
      subst task
      rw [List.append_nil]
      exact ⟨args, stack, env, path, tells, level⟩

end Machine

end TreeCalc
