import TreeCalc.Program
import TreeCalc.Proofs.JournalNesting

namespace TreeCalc

/-- What stands in the span of a call, by the function that it found and the value that it came to. -/
inductive CallInside (found : Option Definition) (depth : Nat) (y : Float) : List Record → Prop
  | unknown (missing : found = none) : CallInside found depth y [.event .undefinedCall]
  | known {d : Definition} {inside : List Record} (registered : found = some d)
      (within : Nested (depth + 1) inside) :
      CallInside found depth y (.event .enteringBody :: (inside ++ [.event (.callReturned y)]))

/-- A call notes one span. -/
theorem Derives.call_notes {name : String} {args : List Node} {y : Float} {env after : Env}
    (run : Derives (.tree (.call name args) y) env after) :
    ∃ inside, CallInside (env.functions.get? name) env.callDepth y inside ∧
      env.Notes after [.span (.call env.callDepth name) inside] := by
  cases run with
  | unknown missing => exact ⟨_, .unknown missing, .unknown env name⟩
  | @call _ _ d bound _ _ middle last found binding body =>
    obtain ⟨log, first⟩ := binding.notes
    obtain ⟨more, second⟩ := body.notes
    have within : Nested (env.callDepth + 1) (log ++ more) := (first.trans second).nested
    exact ⟨_, .known found within, .call bound y first second⟩

/-- What it means that the evaluation of a tree wrote the span of a call after `front`, where `before` was noted
at its start. The depth in the span is the number of calls around it, which are those that ran at the start and
those whose spans are open. The span was opened when the evaluation came to a call of that name, and what stands
in it is what was noted until the machine had the value of that call. -/
def Node.TellsCall (t : Node) (before : List Entry) (env : Env) (front : List Entry) (depth : Nat) (name : String)
    (back : List Entry) : Prop :=
  depth + front.countP Entry.closesCall = env.callDepth + front.countP Entry.opensCall ∧
  ∃ args stack middle y later inside rest,
    Machine.Reaches ⟨.eval t, [], env⟩ ⟨.eval (.call name args), stack, middle⟩ ∧
      middle.noted = some (before ++ front) ∧
    Machine.Reaches ⟨.eval (.call name args), stack, middle⟩ ⟨.give y, stack, later⟩ ∧
    later.noted = some (before ++ (front ++ Record.entries (.span (.call depth name) inside))) ∧
    .enter (.call depth name) :: back = Record.entries (.span (.call depth name) inside) ++ rest ∧
    CallInside (middle.functions.get? name) depth y inside

theorem Node.tellsCall {t : Node} {fuel depth : Nat} {name : String} {before entries front back : List Entry}
    {env after : Env} {x : Float} (listening : env.noted = some before)
    (ends : t.evaluate fuel env = some (x, after))
    (noted : after.noted = some (before ++ entries))
    (split : entries = front ++ .enter (.call depth name) :: back) :
    t.TellsCall before env front depth name back := by
  obtain ⟨written, tells, opened⟩ := (Machine.reaches_of_evaluate ends).tells
  have same : entries = written := by
    have told := tells.noted
    rw [noted, listening] at told
    exact List.append_cancel_left (Option.some.inj told)
  obtain ⟨args, stack, middle, path, told, rfl⟩ := opened front depth name back (same ▸ split)
  have start : (Machine.Config.mk (.eval t) [] env).Level env.callDepth := rfl
  have level : middle.callDepth = env.callDepth + _ := start.reaches path
  have idle : (Machine.Config.mk (.eval t) [] env).running.length = 0 := rfl
  have running := told.running
  have here : middle.noted = some (before ++ front) := by
    rw [told.noted, listening]
    rfl
  obtain ⟨y, later, derived, onwards⟩ := Node.exists_derives_of_reaches ends path
  obtain ⟨inside, within, called⟩ := derived.call_notes
  have there : later.noted =
      some (before ++ (front ++ Record.entries (.span (.call middle.callDepth name) inside))) := by
    rw [called.noted, here, Record.entriesAll_singleton, ← List.append_assoc]
    rfl
  -- Nothing is taken back from a journal, so the span stands in it to the end.
  obtain ⟨rest, last, -⟩ := onwards.tells
  have whole : front ++ .enter (.call middle.callDepth name) :: back =
      front ++ (Record.entries (.span (.call middle.callDepth name) inside) ++ rest) := by
    have told : some (before ++ entries) = (some _).map (· ++ rest) := noted ▸ there ▸ last.noted
    rw [Option.map_some, List.append_assoc, List.append_assoc] at told
    exact split ▸ List.append_cancel_left (Option.some.inj told)
  exact ⟨by omega, args, stack, middle, y, later, inside, rest, path, here, Machine.does_of_derives derived stack,
    there, List.append_cancel_left whole, within⟩

/-- The calls that were counted are those that returned. -/
def Env.CountsReturns (env after : Env) (log : List Record) : Prop :=
  after.counters.map (·.functionCalls.toNat) = env.counters.map fun k =>
    (k.functionCalls.toNat + (Record.entriesAll log).countP Entry.returns) % UInt64.size

theorem Env.CountsReturns.trans {env middle after : Env} {log more : List Record}
    (first : env.CountsReturns middle log)
    (second : middle.CountsReturns after more) : env.CountsReturns after (log ++ more) := by
  have regrouped : after.counters.map (·.functionCalls.toNat) =
      (middle.counters.map (·.functionCalls.toNat)).map fun n =>
      (n + (Record.entriesAll more).countP Entry.returns) % UInt64.size := by
    rw [Option.map_map]
    exact second
  rw [CountsReturns, regrouped, first, Option.map_map, Record.entriesAll_append, List.countP_append]
  refine congrArg (fun f => env.counters.map f) (funext fun k => ?_)
  rw [Function.comp_apply, Nat.mod_add_mod, Nat.add_assoc]

/-- How a log goes with the evaluation of a tree, where `before` was noted at its start. -/
structure Node.Logged (t : Node) (before : List Entry) (env after : Env) (log : List Record) : Prop where
  noted : after.noted = some (before ++ Record.entriesAll log)
  nested : Nested env.callDepth log
  depth : after.callDepth = env.callDepth
  spans : ∀ front depth name back, Record.entriesAll log = front ++ .enter (.call depth name) :: back →
    t.TellsCall before env front depth name back
  returned : env.CountsReturns after log

theorem Node.exists_logged {t : Node} {fuel : Nat} {before : List Entry} {env after : Env} {x : Float}
    (listening : env.noted = some before) (ends : t.evaluate fuel env = some (x, after)) :
    ∃ log, t.Logged before env after log := by
  obtain ⟨log, notes⟩ := ((t.evaluate_iff_derives env x after).mp ⟨fuel, ends⟩).notes
  have noted : after.noted = some (before ++ Record.entriesAll log) := by
    rw [notes.noted, listening]
    rfl
  refine ⟨log, noted, notes.nested, notes.depth, fun front depth name back => Node.tellsCall listening ends noted,
    ?_⟩
  have words : ∀ env : Env, env.counters.map (·.functionCalls.toNat) = env.callCount.map UInt64.toNat := by
    intro env
    rw [Env.callCount, Option.map_map]
    rfl
  rw [Env.CountsReturns, words, notes.calls, Env.callCount, Option.map_map, Option.map_map]
  exact congrArg (fun f => env.counters.map f) (funext fun k => Counters.toNat_add_ofNat _ _)

namespace Program

/-- How a log goes with the evaluation of a whole program: at the top there is one span for every unit, in their
order. -/
structure Logged (program : Program) (fuel : Nat) (before : List Entry) (env after : Env) (x : Float)
    (log : List Record) : Prop where
  noted : after.noted = some (before ++ Record.entriesAll log)
  depth : after.callDepth = env.callDepth
  returned : env.CountsReturns after log
  size : log.length = program.size
  /-- A unit is evaluated when those before it are, with no more calls running than at the start. Its span holds
  what its evaluation noted, and last of all its value. The value of the last unit is that of the program. -/
  units : ∀ i t, program.units[i]? = some t → ∃ w middle y later inside,
    (Program.mk (program.units.take i)).evaluateAll fuel env = some (w, middle) ∧ middle.callDepth = env.callDepth ∧
    t.evaluate fuel (middle.note (.enter (.unit i))) = some (y, later) ∧
    log[i]? = some (.span (.unit i) (inside ++ [.event (.unitEvaluated y)])) ∧
    t.Logged (before ++ Record.entriesAll (log.take i) ++ [.enter (.unit i)]) (middle.note (.enter (.unit i))) later
      inside ∧
    (i + 1 = program.size → y = x)
  empty : program.size = 0 → x = 0.0

theorem evaluateSpan_logged {fuel index : Nat} {t : Node} {y : Float} {before : List Entry} {env closed : Env}
    (listening : env.noted = some before) (ends : evaluateSpan fuel index t env = some (y, closed)) :
    ∃ inside later, t.evaluate fuel (env.note (.enter (.unit index))) = some (y, later) ∧
      t.Logged (before ++ [.enter (.unit index)]) (env.note (.enter (.unit index))) later inside ∧
      closed.noted =
        some (before ++ Record.entries (.span (.unit index) (inside ++ [.event (.unitEvaluated y)]))) ∧
      closed.callDepth = env.callDepth ∧
      env.CountsReturns closed [.span (.unit index) (inside ++ [.event (.unitEvaluated y)])] := by
  obtain ⟨⟨z, later⟩, inner, same⟩ := Option.bind_eq_some_iff.mp ends
  cases same
  have opened : (env.note (.enter (.unit index))).noted = some (before ++ [.enter (.unit index)]) := by
    rw [Env.noted_note, listening]
    rfl
  obtain ⟨inside, logged⟩ := Node.exists_logged opened inner
  refine ⟨inside, later, inner, logged, ?_, logged.depth, ?_⟩
  · rw [Env.noted_note, Env.noted_note, logged.noted, Env.map_append_append]
    simp [Record.entries, Record.entriesAll_append, Record.entriesAll, Span.kind]
  · -- The span itself and its last event are no returns.
    have same :
        (Record.entriesAll [.span (.unit index) (inside ++ [.event (.unitEvaluated y)])]).countP Entry.returns =
          (Record.entriesAll inside).countP Entry.returns := by
      simp [Record.entriesAll, Record.entries, Record.entriesAll_append, Entry.returns]
    rw [Env.CountsReturns, same]
    exact logged.returned

/-- Evaluating units from some index on notes their spans. -/
theorem evaluateFrom_logged {fuel : Nat} (ts : List Node) {index : Nat} {w x : Float} {before : List Entry}
    {env after : Env}
    (listening : env.noted = some before) (ends : evaluateFrom fuel index w ts env = some (x, after)) :
    ∃ log, after.noted = some (before ++ Record.entriesAll log) ∧ after.callDepth = env.callDepth ∧
      env.CountsReturns after log ∧ log.length = ts.length ∧ (ts = [] → x = w) ∧
      ∀ i t, ts[i]? = some t → ∃ v middle y later inside,
        evaluateFrom fuel index w (ts.take i) env = some (v, middle) ∧ middle.callDepth = env.callDepth ∧
        t.evaluate fuel (middle.note (.enter (.unit (index + i)))) = some (y, later) ∧
        log[i]? = some (.span (.unit (index + i)) (inside ++ [.event (.unitEvaluated y)])) ∧
        t.Logged (before ++ Record.entriesAll (log.take i) ++ [.enter (.unit (index + i))])
          (middle.note (.enter (.unit (index + i)))) later inside ∧
        (i + 1 = ts.length → y = x) := by
  induction ts generalizing index w before env with
  | nil =>
    cases ends
    refine ⟨[], by simpa [Record.entriesAll] using listening, rfl, ?_, rfl, fun _ => rfl, ?_⟩
    · have word : ∀ k : Counters, k.functionCalls.toNat = (k.functionCalls.toNat + 0) % UInt64.size := by
        intro k
        exact (Nat.mod_eq_of_lt k.functionCalls.toNat_lt).symm
      exact congrArg (fun f => after.counters.map f) (funext word)
    · intro i t found
      rw [List.getElem?_nil] at found
      cases found
  | cons t ts ih =>
    obtain ⟨⟨y, closed⟩, first, rest⟩ := Option.bind_eq_some_iff.mp ends
    obtain ⟨inside, later, inner, logged, around, level, counted⟩ := evaluateSpan_logged listening first
    obtain ⟨log, noted, depth, returned, length, last, each⟩ := ih around rest
    have both : ∀ records,
        before ++ Record.entriesAll (.span (.unit index) (inside ++ [.event (.unitEvaluated y)]) :: records) =
        before ++ Record.entries (.span (.unit index) (inside ++ [.event (.unitEvaluated y)])) ++
          Record.entriesAll records := by
      intro records
      rw [Record.entriesAll, List.append_assoc]
    refine ⟨_ :: log, (both log).symm ▸ noted, depth.trans level, counted.trans returned, congrArg Nat.succ length,
      fun none => absurd none (List.cons_ne_nil t ts), ?_⟩
    intro i u found
    cases i with
    | zero =>
      cases found
      refine ⟨w, env, y, later, inside, rfl, rfl, inner, rfl, ?_, ?_⟩
      · rwa [List.take_zero, Record.entriesAll, List.append_nil]
      · intro only
        exact (last (List.eq_nil_of_length_eq_zero (Nat.succ.inj only.symm))).symm
    | succ i =>
      obtain ⟨v, middle, z, after, within, earlier, idle, run, atIndex, told, final⟩ := each i u found
      have shift : index + (i + 1) = index + 1 + i := by omega
      rw [shift, List.take_succ_cons, List.take_succ_cons, both]
      exact ⟨v, middle, z, after, within, Option.bind_eq_some_iff.mpr ⟨_, first, earlier⟩, idle.trans level, run,
        atIndex, told, fun only => final (Nat.succ.inj only)⟩

theorem exists_logged {program : Program} {fuel : Nat} {before : List Entry} {env after : Env} {x : Float}
    (listening : env.noted = some before) (ends : program.evaluateAll fuel env = some (x, after)) :
    ∃ log, program.Logged fuel before env after x log := by
  obtain ⟨log, noted, depth, returned, length, empty, each⟩ := evaluateFrom_logged _ listening ends
  refine ⟨log, noted, depth, returned, length, ?_, fun none => empty (List.eq_nil_of_length_eq_zero none)⟩
  intro i t found
  obtain ⟨w, middle, y, later, inside, unit⟩ := each i t (by rwa [Array.getElem?_toList])
  rw [Nat.zero_add] at unit
  have front : (program.units.take i).toList = program.units.toList.take i := by simp
  have earlier : (Program.mk (program.units.take i)).evaluateAll fuel env = _ :=
    congrArg (evaluateFrom fuel 0 0.0 · env) front
  exact ⟨w, middle, y, later, inside, earlier.trans unit.1, unit.2⟩

/-- The journal is well nested and tells the run. The evaluation of a tree notes spans that are opened and closed
in pairs. Every span of a call gives the number of calls around it and stands for one call of the run, with the
value that the call came to, or says that the name is unknown; as many calls are counted as return. A program
notes one span for every unit, in their order, with its value at the end. -/
theorem journal_tells_run :
    (∀ (t : Node) (fuel : Nat) (before : List Entry) (env after : Env) (x : Float), env.noted = some before →
      t.evaluate fuel env = some (x, after) → ∃ log, t.Logged before env after log) ∧
    ∀ (program : Program) (fuel : Nat) (before : List Entry) (env after : Env) (x : Float),
      env.noted = some before →
      program.evaluateAll fuel env = some (x, after) → ∃ log, program.Logged fuel before env after x log := by
  refine ⟨?_, ?_⟩
  · intro t fuel before env after x listening ends
    exact Node.exists_logged listening ends
  · intro program fuel before env after x listening ends
    exact exists_logged listening ends

/-- An environment with a function that gives back its parameter, where somebody listens and the next call makes
the count of calls overflow. -/
def listeningAtOverflow : Env :=
  { functions := Table.empty.insert "f" ⟨0, "f", ⟨"x", []⟩, .var "x"⟩, output := ⟨.silent, ""⟩,
    counters := some { functionCalls := 18446744073709551615 }, journal := some #[] }

/-- The span of an unknown call in an argument stands in the span of the call. In a program of two units the
second one calls what the first one defined. -/
theorem journal_tells_run_argument :
    (∃ x after log, (Node.call "f" [.call "g" []]).evaluate 40 listeningAtOverflow = some (x, after) ∧
      (Node.call "f" [.call "g" []]).Logged [] listeningAtOverflow after log ∧
      Record.entriesAll log =
        [.enter (.call 0 "f"), .event .enteringBody, .enter (.call 1 "g"), .event .undefinedCall, .exit .call,
          .event (.callReturned 0.0), .exit .call] ∧
      after.counters.map (·.functionCalls.toNat) = some 0) ∧
    ∃ x after log,
      (Program.mk #[.define 1 "h" ⟨"y", []⟩ (.num 7.0), .call "h" []]).evaluateAll 40 listeningAtOverflow =
        some (x, after) ∧
      (Program.mk #[.define 1 "h" ⟨"y", []⟩ (.num 7.0), .call "h" []]).Logged 40 []
        listeningAtOverflow after x log ∧
      log.length = 2 ∧ x = 7.0 := by
  refine ⟨?_, ?_⟩
  · let t : Node := .call "f" [.call "g" []]
    have ends : (t.evaluate 40 listeningAtOverflow).map
        (fun r => (r.2.noted, r.2.counters.map (·.functionCalls.toNat))) =
        some (some [.enter (.call 0 "f"), .event .enteringBody, .enter (.call 1 "g"), .event .undefinedCall,
          .exit .call, .event (.callReturned 0.0), .exit .call], some 0) := by
      decide +kernel
    obtain ⟨⟨x, after⟩, run, values⟩ := Option.map_eq_some_iff.mp ends
    obtain ⟨noted, counted⟩ := Prod.mk.inj values
    obtain ⟨log, logged⟩ := journal_tells_run.1 t 40 [] listeningAtOverflow after x rfl run
    exact ⟨x, after, log, run, logged, Option.some.inj (logged.noted.symm.trans noted), counted⟩
  · let program : Program := ⟨#[.define 1 "h" ⟨"y", []⟩ (.num 7.0), .call "h" []]⟩
    have ends : (program.evaluateAll 40 listeningAtOverflow).map Prod.fst = some 7.0 := by decide +kernel
    obtain ⟨⟨x, after⟩, run, value⟩ := Option.map_eq_some_iff.mp ends
    obtain ⟨log, logged⟩ := journal_tells_run.2 program 40 [] listeningAtOverflow after x rfl run
    exact ⟨x, after, log, run, logged, logged.size, value⟩

end Program

end TreeCalc
