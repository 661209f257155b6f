import TreeCalc.Proofs.ServedHandles

namespace TreeCalc

open Definition

namespace Handles

/-- A handle more and then one less to a definition that is alive: nothing has changed. -/
theorem release_retain {h : Handles} {d : Definition} (alive : 0 < h.count d.id) :
    (h.retain [d]).release [d] = h := by
  have positive : h.count d.id ≠ 0 := by omega
  have retained : h.retain [d] = h.setCount d.id (h.count d.id + 1) := by
    rw [retain, if_neg positive, retain]
  have more : ¬ (h.setCount d.id (h.count d.id + 1)).count d.id ≤ 1 := by
    rw [count_setCount, if_pos rfl]
    omega
  have listed : h.counts[d.id]? = some (h.count d.id) := by
    cases found : h.counts[d.id]? with
    | none => simp [count, found] at alive
    | some n => simp [count, found]
  rw [retained, release, if_neg more, release, count_setCount, if_pos rfl, Nat.add_sub_cancel]
  obtain ⟨counts⟩ := h
  simp only [setCount, mk.injEq]
  refine Std.ExtTreeMap.ext_getElem? fun id => ?_
  rw [Std.ExtTreeMap.getElem?_insert, Std.ExtTreeMap.getElem?_insert]
  by_cases same : d.id = id
  · subst same
    simp [listed]
  · simp [same]

end Handles

namespace Env
variable {env : Env} {d old : Definition}

theorem journal_define (found : env.functions.get? d.name = some old) (apart : old.id ≠ d.id) :
    (env.define d).journal =
      env.journal.map (·.push (.event (.replaced d.name ((env.setFunction d.name d).2.handles.count old.id)))) := by
  simp only [define, setFunction, found, if_neg apart]
  rfl

/-- To register a definition again that is registered already changes no function and no count. -/
theorem define_again (found : env.functions.get? d.name = some d) (alive : 0 < env.handles.count d.id) :
    (env.define d).functions = env.functions ∧ (env.define d).handles = env.handles := by
  refine ⟨?_, ?_⟩
  · rw [functions_define]
    refine Table.ext fun name => ?_
    rw [Table.get?_insert]
    split
    · next same => rw [← same, found]
    · rfl
  · rw [handles_define, found]
    exact Handles.release_retain alive

end Env

theorem Session.evalTimes_again {env : Env} {d : Definition} (found : env.functions.get? d.name = some d)
    (alive : 0 < env.handles.count d.id) (fuel times : Nat) :
    ∃ xs after, evalTimes (fuel + 2) d.toNode times env = some (xs, after) ∧ after.handles = env.handles := by
  induction times generalizing env with
  | zero => exact ⟨[], env, rfl, rfl⟩
  | succ times ih =>
    obtain ⟨functions, handles⟩ := Env.define_again found alive
    have once : d.toNode.evaluate (fuel + 2) env = some (0.0, env.define d) := rfl
    obtain ⟨xs, after, rest, same⟩ := ih (functions ▸ found) (handles ▸ alive)
    exact ⟨0.0 :: xs, after, by simp [evalTimes, once, rest], same.trans handles⟩

namespace Session

/-- To serve a request, a session begins to evaluate a tree in an environment, while the trees `live` live besides
those of its program and those that it keeps. -/
inductive Begins (s : Session) : Request → List Node → Node → Env → Prop
  | eval {t : Node} {times fuel done : Nat} {xs : List Float} {env : Env}
      (earlier : evalTimes fuel (s.adopt t).1 done (s.adopt t).2.env = some (xs, env)) (less : done < times) :
      Begins s (.eval t times) [(s.adopt t).1] (s.adopt t).1 env
  | evalList {ts : List Node} {t : Node} (list : Node.ofList? ts = some t) :
      Begins s (.evalList ts) [(s.adopt t).1] (s.adopt t).1 (s.adopt t).2.env
  | evalAt {source : Source} {t : Node} {times fuel done : Nat} {xs : List Float} {env : Env}
      (found : s.find? source = some t) (earlier : evalTimes fuel t done s.env = some (xs, env))
      (less : done < times) :
      Begins s (.evalAt source times) [] t env
  | run {done rest : List Node} {t : Node} {fuel : Nat} {x : Float} {env : Env}
      (units : s.program.units.toList = done ++ t :: rest)
      (earlier : Program.evaluateFrom fuel 0 0.0 done s.env = some (x, env)) :
      Begins s .run [] t (env.note (.enter (.unit done.length)))
  | runUnit {index : Nat} {t : Node} (unit : s.program.units[index]? = some t) :
      Begins s (.runUnit index) [] t (s.env.note (.enter (.unit index)))

/-- A moment while a request is served: the trees that live for the request, and how far the machine has come. -/
def Passes (s : Session) (request : Request) (live : List Node) (c : Machine.Config) : Prop :=
  ∃ t env, s.Begins request live t env ∧ Machine.Reaches ⟨.eval t, [], env⟩ c

/-- The handles that are held at such a moment: those in the table of functions, those of the running calls, those
of the nodes in the trees that live for the request, and those that the session keeps. -/
def heldAt (s : Session) (live : List Node) (c : Machine.Config) : List Definition :=
  c.env.functions.values ++ c.running ++ live.flatMap Node.made ++ s.kept

theorem heldAt_eq (s : Session) (live : List Node) (c : Machine.Config) :
    s.heldAt live c = c.env.functions.values ++ (c.running ++ (live.flatMap Node.made ++ s.kept)) := by
  simp only [heldAt, List.append_assoc]

theorem Begins.settled {s : Session} {request : Request} {live : List Node} {t : Node} {env : Env}
    (begins : s.Begins request live t env) (settled : s.Settled []) :
    ∃ U : Definition → Prop, env.Settled U (live.flatMap Node.made ++ s.kept) ∧ ∀ d ∈ t.made, U d := by
  have adopted : ∀ t : Node, ∃ U : Definition → Prop,
      (s.adopt t).2.env.Settled U ([(s.adopt t).1].flatMap Node.made ++ s.kept) ∧
        ∀ d ∈ (s.adopt t).1.made, U d := by
    intro t
    obtain ⟨U, _, env⟩ := settled.adopt t
    exact ⟨U, env, fun d made => env.known_other (by simp [made])⟩
  cases begins with
  | @eval t times fuel done xs env earlier less =>
    obtain ⟨U, before, known⟩ := adopted t
    exact ⟨U, before.evalTimes known earlier, known⟩
  | @evalList ts t list => exact adopted t
  | @evalAt source t times fuel done xs env found earlier less =>
    obtain ⟨U, _, before⟩ := settled
    have known := Settled.known_source before found
    exact ⟨U, before.evalTimes known earlier, known⟩
  | @run done rest t fuel x env units earlier =>
    obtain ⟨U, _, before⟩ := settled
    have known : ∀ u ∈ done ++ t :: rest, ∀ d ∈ u.made, U d := by
      rw [← units]
      exact fun u unit => Settled.known_unit before unit
    have between := before.evaluateFrom (fun u member => known u (List.mem_append_left _ member)) earlier
    exact ⟨U, between.of_same rfl rfl, known t (by simp)⟩
  | @runUnit index t unit =>
    obtain ⟨U, _, before⟩ := settled
    have found : s.find? (.unit index) = some t := unit
    exact ⟨U, before.of_same rfl rfl, Settled.known_source before found⟩

theorem Passes.settled {s : Session} {request : Request} {live : List Node} {c : Machine.Config}
    (passes : s.Passes request live c) (settled : s.Settled []) :
    ∃ U, c.Settled U (live.flatMap Node.made ++ s.kept) := by
  obtain ⟨t, env, begins, path⟩ := passes
  obtain ⟨U, start, known⟩ := begins.settled settled
  exact ⟨U, (Machine.settled_start start known).reaches path⟩

/-- The definition whose handles the reply to a request counts. -/
def asked (s : Session) : Request → Option Definition
  | .handles slot => s.slots.get? slot
  | .hold _ name => s.env.functions.get? name
  | .make _ name params body => some ⟨(body.stamp s.nextId).2, name, params, (body.stamp s.nextId).1⟩
  | .copy _ source => s.slots.get? source
  | .enclose _ name params place => (s.trees.get? place).map fun body => ⟨s.nextId, name, params, body⟩
  | .pick _ source index => (s.find? source).bind (·.definitions[index]?)
  | .wrap _ slot => s.slots.get? slot
  | .register name slot => (s.slots.get? slot).bind fun _ => s.env.functions.get? name
  | _ => none

/-- The handles that a request puts others in the place of. They are let go only after the reply has counted
them. -/
def displaced (s : Session) : Request → List Definition
  | .hold slot _ | .make slot .. | .copy slot _ | .enclose slot .. | .pick slot .. => (s.slots.get? slot).toList
  | .wrap place _ => (s.trees.get? place).toList.flatMap Node.made
  | .register name _ => (s.env.functions.get? name).toList
  | _ => []

end Session

/-- The handles that a reply counts. -/
def Reply.handleCount? : Reply → Option Nat
  | .count n | .replaced _ n => some n
  | _ => none

namespace Session

variable {s next : Session} {U : Definition → Prop} {d : Definition} {reply : Reply}

theorem count_fill (env : s.env.Settled U ([d] ++ s.kept)) (slot : String) :
    s.env.handles.count d.id = tally d.id (places ((s.slots.get? slot).toList ++ (s.fill slot d).held)) :=
  ((Settled.counted_fill env slot).exact (List.perm_append_comm_assoc _ _ _)).count_eq d.id

theorem reply_keep (env : s.env.Settled U s.kept) (known : U d) {slot : String}
    (kept : s.keep slot d = (next, reply)) :
    reply.handleCount? = some (tally d.id (places ((s.slots.get? slot).toList ++ next.held))) := by
  cases kept
  exact congrArg some (count_fill (s := { s with env := s.env.retain [d] }) (Settled.retain env known) slot)

theorem reply_wrap (settled : s.Settled []) {fuel : Nat} {place slot : String} (found : s.slots.get? slot = some d)
    (served : s.serve fuel (.wrap place slot) = some (next, reply)) :
    reply.handleCount? =
      some (tally d.id (places ((s.trees.get? place).toList.flatMap Node.made ++ next.held))) := by
  simp only [serve, withSlot, found] at served
  obtain ⟨U, _, env⟩ := settled
  have stored := Settled.counted_store (s := { s with env := s.env.retain [d] }) (t := d.toNode)
    (Settled.retain env (Settled.known_slot env found)) place
  have counted := (stored.exact (List.perm_append_comm_assoc _ _ _)).count_eq d.id
  cases Option.some.inj served
  exact congrArg some counted

theorem reply_register (settled : s.Settled []) {fuel : Nat} {name slot : String} {new : Definition}
    (found : s.slots.get? slot = some new) (former : s.env.functions.get? name = some d)
    (served : s.serve fuel (.register name slot) = some (next, reply)) :
    reply.handleCount? = some (tally d.id (places ((s.env.functions.get? name).toList ++ next.held))) := by
  obtain ⟨U, _, env⟩ := settled
  have counted := ((env.setFunction name (Settled.known_slot env found)).exact
    (List.perm_append_comm_assoc _ _ _)).count_eq d.id
  simp only [serve, withSlot, found, Env.setFunction, former] at served
  cases Option.some.inj served
  exact congrArg some counted

/-- The handles that a reply counts are those held once the request is served, and those it displaced. -/
theorem reply_counts {fuel : Nat} {request : Request} (settled : s.Settled [])
    (served : s.serve fuel request = some (next, reply)) (asked : s.asked request = some d) :
    reply.handleCount? = some (tally d.id (places (s.displaced request ++ next.held))) := by
  cases request with
  | handles slot =>
    simp only [Session.asked] at asked
    simp only [serve, withSlot, asked] at served
    cases Option.some.inj served
    exact congrArg some (settled.exact.count_eq d.id)
  | hold slot name =>
    simp only [Session.asked] at asked
    simp only [serve, asked] at served
    obtain ⟨U, _, env⟩ := settled
    exact reply_keep env (env.known_function asked) (Option.some.inj served)
  | make slot name params body =>
    cases Option.some.inj asked
    obtain ⟨U, _, known, env⟩ := settled.make name params body
    exact reply_keep (s := { s with nextId := (body.stamp s.nextId).2 + 1 }) env known (Option.some.inj served)
  | copy slot source =>
    simp only [Session.asked] at asked
    simp only [serve, withSlot, asked] at served
    obtain ⟨U, _, env⟩ := settled
    exact reply_keep env (Settled.known_slot env asked) (Option.some.inj served)
  | enclose slot name params place =>
    obtain ⟨body, found, rfl⟩ := Option.map_eq_some_iff.mp asked
    simp only [serve, found] at served
    obtain ⟨U, _, env⟩ := settled.enclose found name params
    cases Option.some.inj served
    exact congrArg some
      (count_fill (s := { s with env := _, trees := s.trees.erase place, nextId := s.nextId + 1 }) env slot)
  | pick slot source index =>
    simp only [Session.asked] at asked
    simp only [serve, asked] at served
    obtain ⟨t, found, listed⟩ := Option.bind_eq_some_iff.mp asked
    obtain ⟨U, _, env⟩ := settled
    have made : d ∈ t.made := t.definitions_eq_made ▸ List.mem_of_getElem? listed
    exact reply_keep env (Settled.known_source env found d made) (Option.some.inj served)
  | wrap place slot => exact reply_wrap settled asked served
  | register name slot =>
    obtain ⟨new, found, former⟩ := Option.bind_eq_some_iff.mp asked
    exact reply_register settled found former served
  | _ => cases asked

/-- What the journal counts when a definition's node replaces a function. -/
theorem Passes.replaced {s : Session} {request : Request} {live : List Node} {c next : Machine.Config}
    {d old : Definition} (passes : s.Passes request live c) (settled : s.Settled [])
    (task : c.task = .eval d.toNode) (one : Machine.step c = some next)
    (found : c.env.functions.get? d.name = some old) (apart : old.id ≠ d.id) :
    next.env.journal = c.env.journal.map
      (·.push (.event (.replaced d.name (tally old.id (places (old :: s.heldAt live next)))))) := by
  obtain ⟨U, moment⟩ := passes.settled settled
  obtain ⟨env, running⟩ := Machine.step_define task one
  have between := moment.env.setFunction d.name (moment.known_task task)
  have listed : (old :: s.heldAt live next).Perm ((c.env.setFunction d.name d).2.functions.values ++
      ((c.env.functions.get? d.name).toList ++ (c.running ++ (live.flatMap Node.made ++ s.kept)))) := by
    rw [heldAt_eq, env, running, Env.functions_define, found]
    exact List.perm_middle.symm
  rw [← (between.exact listed).count_eq, env]
  exact Env.journal_define found apart

/-- A definition's node that was just evaluated can be evaluated again, as often as one likes, and no count
changes. -/
theorem Passes.again {s : Session} {request : Request} {live : List Node} {c next : Machine.Config}
    {d : Definition} (passes : s.Passes request live c) (settled : s.Settled [])
    (task : c.task = .eval d.toNode) (one : Machine.step c = some next) (fuel times : Nat) :
    ∃ xs after,
      evalTimes (fuel + 2) d.toNode times next.env = some (xs, after) ∧ after.handles = next.env.handles := by
  obtain ⟨U, moment⟩ := passes.settled settled
  have later := (moment.step one).env.exact (List.Perm.refl _)
  have found : next.env.functions.get? d.name = some d := by
    rw [(Machine.step_define task one).1, Env.get?_functions_define]
  have alive := later.count_pos (List.mem_append_left _ (Table.mem_values.mpr ⟨d.name, found⟩))
  exact evalTimes_again found alive fuel times

/-- In every session and at every moment of it the count of a definition's handles is the number of places that hold
it, and a definition is forgotten just when there is no such place. So the function of a running call is never
forgotten; the journal counts the last handle to a function that is replaced; evaluating a definition's node again
changes no count; and where nothing is held, nothing is counted. -/
theorem handle_counts_exact {s : Session} (reached : s.Reached) :
    s.env.handles.Exact s.held ∧
    (∀ request live c, s.Passes request live c →
      c.env.handles.Exact (s.heldAt live c) ∧
      (∀ d ∈ c.running, d.id ∈ c.env.handles.counts) ∧
      ∀ (d : Definition) next, c.task = .eval d.toNode → Machine.step c = some next →
        (∀ old, c.env.functions.get? d.name = some old → old.id ≠ d.id →
          next.env.journal = c.env.journal.map
            (·.push (.event (.replaced d.name (tally old.id (places (old :: s.heldAt live next))))))) ∧
        ∀ fuel times, ∃ xs after,
          evalTimes (fuel + 2) d.toNode times next.env = some (xs, after) ∧ after.handles = next.env.handles) ∧
    (∀ fuel request next reply d, s.serve fuel request = some (next, reply) → s.asked request = some d →
      reply.handleCount? = some (tally d.id (places (s.displaced request ++ next.held)))) ∧
    (s.held = [] → ∀ id, s.env.handles.count id = 0) := by
  have settled := reached.settled
  refine ⟨settled.exact, ?_, ?_, ?_⟩
  · intro request live c passes
    obtain ⟨U, moment⟩ := passes.settled settled
    have exact : c.env.handles.Exact (s.heldAt live c) := by
      rw [heldAt_eq]
      exact moment.env.exact (List.Perm.refl _)
    refine ⟨exact, ?_, ?_⟩
    · intro d member
      have held : d ∈ s.heldAt live c := by simp [heldAt, member]
      exact exact.listed held
    · intro d next task one
      exact ⟨fun old => passes.replaced settled task one, passes.again settled task one⟩
  · intro fuel request next reply d served asked
    exact reply_counts settled served asked
  · intro nothing id
    rw [settled.exact.count_eq, nothing]
    rfl

/-- The function that `passing` leaves behind. -/
def successor : Definition := ⟨0, "f", ⟨"x", []⟩, .num 1.0⟩

/-- A function whose body puts another in its place. -/
def passing : Definition := ⟨1, "f", ⟨"x", []⟩, successor.toNode⟩

/-- A function in a slot comes to stand twice in a kept tree. The tree is evaluated, and then the slot is
emptied. -/
def sharing : List Request :=
  [.make "slot" "f" ⟨"x", []⟩ (.var "x"), .plant "tree" (.seq (.var "a") (.var "b")), .wrap "twig" "slot",
    .graft "tree" "a" "twig", .wrap "twig" "slot", .graft "tree" "b" "twig", .evalAt (.tree "tree") 1, .drop "slot"]

/-- While it runs, a function that put another in its place is held by its call only, and the other one by the table
and by the body that makes it. A function that stands twice in a tree is held twice by it. -/
theorem handle_counts_exact_passing :
    (∃ s c, Reached s ∧ s.Passes (.eval (.call "f" []) 1) [.call "f" []] c ∧
      c.env.functions.get? "f" = some successor ∧ c.running = [passing] ∧
      c.env.handles.count passing.id = 1 ∧ c.env.handles.count successor.id = 2) ∧
    ∃ s, (Session.start {}).serveAll 9 sharing = some s ∧ Reached s ∧ s.env.handles.count 0 = 3 := by
  have shared : ∃ s, (Session.start {}).serveAll 9 sharing = some s ∧ Reached s ∧ s.env.handles.count 0 = 3 := by
    have ends : (((Session.start {}).serveAll 9 sharing).map fun s => tally 0 (places s.held)) = some 3 := by
      decide +kernel
    obtain ⟨s, served, held⟩ := Option.map_eq_some_iff.mp ends
    have reached := (Reached.start {}).serveAll served
    exact ⟨s, served, reached, ((handle_counts_exact reached).1.count_eq 0).trans held⟩
  refine ⟨?_, shared⟩
  have registered : ∃ s reply, (Session.start {}).serve 2 (.eval passing.toNode 1) = some (s, reply) ∧
      s.env.functions = ((Session.start {}).env.define passing).functions ∧ s.kept = (Session.start {}).kept :=
    ⟨_, _, rfl, rfl, rfl⟩
  obtain ⟨s, reply, served, functions, kept⟩ := registered
  rw [Env.functions_define] at functions
  -- The machine goes on until the body has been evaluated and the call is about to end.
  let env : Env := (s.adopt (.call "f" [])).2.env
  let called : Env := (env.openCall "f").beginCall passing
  let c : Machine.Config :=
    ⟨.give 0.0, [.finish passing (called.save [] "x")], (called.assign "x" 0.0).define successor⟩
  have begins : s.Begins (.eval (.call "f" []) 1) [.call "f" []] (.call "f" []) env :=
    .eval (show evalTimes 0 (.call "f" []) 0 env = some ([], env) from rfl) Nat.zero_lt_one
  have call : Machine.step ⟨.eval (.call "f" []), [], env⟩ = some ⟨.bind passing [] ["x"] [], [], called⟩ := by
    have found : env.functions.get? "f" = some passing := functions ▸ Table.get?_insert_self _ "f" passing
    simp only [Machine.step, Machine.enter, found]
    rfl
  have passes : s.Passes (.eval (.call "f" []) 1) [.call "f" []] c :=
    ⟨_, _, begins, .head call (.head rfl (.head rfl (.head rfl .refl)))⟩
  have values : c.env.functions.values = [successor] := by
    have single := s.env.functions.values_insert_perm "f" successor
    have others : s.env.functions.erase "f" = Table.empty := by
      refine Table.ext fun name => ?_
      have start : (Session.start {}).env.functions = Table.empty := rfl
      rw [functions, start, Table.get?_erase, Table.get?_insert]
      split
      · rfl
      · next apart => exact if_neg apart
    rw [others, Table.values_empty] at single
    rw [Env.functions_define]
    exact List.perm_singleton.mp single
  have held : s.heldAt [.call "f" []] c = [successor, passing] := by
    have running : c.running = [passing] := rfl
    have made : [Node.call "f" []].flatMap Node.made = [] := rfl
    rw [heldAt, values, running, made, kept, kept_start]
    rfl
  have exact := ((handle_counts_exact (.serve (.start {}) served)).2.1 _ _ c passes).1
  rw [held] at exact
  refine ⟨s, c, .serve (.start {}) served, passes, Env.get?_functions_define _ successor, rfl, ?_, ?_⟩
  · rw [exact.count_eq]
    decide
  · rw [exact.count_eq]
    decide

end Session

end TreeCalc
