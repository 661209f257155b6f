import TreeCalc.Proofs.Grafts
import TreeCalc.Proofs.HeldHandles
import TreeCalc.Session

namespace TreeCalc

open Definition

/-- Definitions with identities that were free come to those that are known. -/
theorem Coherent.grow {U : Definition → Prop} {first next : Nat} {ds : List Definition} (coherent : Coherent U)
    (earlier : ∀ d, U d → d.id < first) (fresh : Fresh first next ds)
    (closed : ∀ d ∈ ds, ∀ e ∈ d.body.made, U e ∨ e ∈ ds) : Coherent fun d => U d ∨ d ∈ ds := by
  refine ⟨?_, ?_⟩
  · intro d e left right same
    rcases left with old | new
    · rcases right with alsoOld | young
      · exact coherent.unique d e old alsoOld same
      · have lower := earlier d old
        have range := fresh.range e young
        omega
    · rcases right with old | young
      · have lower := earlier e old
        have range := fresh.range d new
        omega
      · exact eq_of_id fresh.distinct new young same
  · intro d known e made
    rcases known with old | new
    · exact Or.inl (coherent.closed d old e made)
    · exact closed d new e made

theorem Env.Settled.initial {env : Env} (functions : env.functions = Table.empty) (handles : env.handles = {}) :
    env.Settled (fun _ => False) [] := by
  refine ⟨⟨fun d e known => known.elim, fun d known => known.elim⟩, ?_, ?_⟩
  · simp [functions]
  · rw [functions, handles, Table.values_empty]
    exact Balanced.empty

theorem Env.assignAll_same (bindings : List (String × Float)) (env : Env) :
    (env.assignAll bindings).functions = env.functions ∧ (env.assignAll bindings).handles = env.handles := by
  rw [assignAll_eq]
  exact ⟨rfl, rfl⟩

theorem Env.Settled.releaseAll {U : Definition → Prop} {others : List Definition} (ts : List Node) {env : Env}
    (settled : env.Settled U (ts.flatMap Node.made ++ others)) :
    (ts.foldl (fun env t => env.release t.definitions) env).Settled U others := by
  induction ts generalizing env with
  | nil => exact settled
  | cons t ts ih =>
    rw [List.flatMap_cons, List.append_assoc, ← Node.definitions_eq_made] at settled
    exact ih settled.release

theorem Env.Settled.evalTimes {U : Definition → Prop} {others : List Definition} {t : Node}
    (known : ∀ d ∈ t.made, U d) {fuel times : Nat} {env after : Env} {xs : List Float}
    (settled : env.Settled U others) (ends : Session.evalTimes fuel t times env = some (xs, after)) :
    after.Settled U others := by
  induction times generalizing env xs with
  | zero =>
    cases Option.some.inj ends
    exact settled
  | succ times ih =>
    simp only [Session.evalTimes, Option.bind_eq_bind, Option.bind_eq_some_iff, Prod.exists] at ends
    obtain ⟨x, middle, first, ys, last, rest, same⟩ := ends
    cases Option.some.inj same
    exact ih (settled.evaluate known first) rest

theorem Env.Settled.evaluateSpan {U : Definition → Prop} {others : List Definition} {t : Node}
    (known : ∀ d ∈ t.made, U d) {fuel index : Nat} {env after : Env} {x : Float} (settled : env.Settled U others)
    (ends : Program.evaluateSpan fuel index t env = some (x, after)) : after.Settled U others := by
  simp only [Program.evaluateSpan, Option.bind_eq_bind, Option.bind_eq_some_iff, Prod.exists] at ends
  obtain ⟨y, middle, run, same⟩ := ends
  cases Option.some.inj same
  have entered : (env.note (.enter (.unit index))).Settled U others := settled.of_same rfl rfl
  exact (entered.evaluate known run).of_same rfl rfl

theorem Env.Settled.evaluateFrom {U : Definition → Prop} {others : List Definition} {ts : List Node}
    (known : ∀ t ∈ ts, ∀ d ∈ t.made, U d) {fuel index : Nat} {x y : Float} {env after : Env}
    (settled : env.Settled U others) (ends : Program.evaluateFrom fuel index x ts env = some (y, after)) :
    after.Settled U others := by
  induction ts generalizing index x env with
  | nil =>
    cases Option.some.inj ends
    exact settled
  | cons t ts ih =>
    simp only [Program.evaluateFrom, Option.bind_eq_bind, Option.bind_eq_some_iff, Prod.exists] at ends
    obtain ⟨z, middle, first, rest⟩ := ends
    have between := settled.evaluateSpan (known t List.mem_cons_self) first
    exact ih (fun s member => known s (List.mem_cons_of_mem t member)) between rest

def Program.made (program : Program) : List Definition := program.units.toList.flatMap Node.made

namespace Session

/-- The handles in the trees that a session keeps. -/
def loose (s : Session) : List Definition := s.trees.values.flatMap Node.made

/-- The handles that a session keeps in its slots, in the units of its program and in its trees. -/
def kept (s : Session) : List Definition := s.slots.values ++ (s.program.made ++ s.loose)

/-- The handles that are held in a session: those in the table of functions and those that it keeps. -/
def held (s : Session) : List Definition := s.env.functions.values ++ s.kept

theorem kept_start (setup : Setup) : (Session.start setup).kept = [] := by
  have slots : (Session.start setup).slots.values = [] := Table.values_empty
  have trees : (Session.start setup).trees.values = [] := Table.values_empty
  have units : (Session.start setup).program.made = [] := rfl
  rw [kept, loose, slots, trees, units]
  rfl

/-- The counts are right for what the session holds and `besides`, and no identity was given twice. -/
def Settled (s : Session) (besides : List Definition) : Prop :=
  ∃ U : Definition → Prop, (∀ d, U d → d.id < s.nextId) ∧ s.env.Settled U (besides ++ s.kept)

theorem discardAll (ts : List Node) (s : Session) :
    ts.foldl discard s = { s with env := ts.foldl (fun env t => env.release t.definitions) s.env } := by
  induction ts generalizing s with
  | nil => rfl
  | cons t ts ih => exact ih (s.discard t)

/-- The trees that are pulled out and those that stay are all that there were. -/
theorem pull_perm (places : List String) (trees : Table Node) :
    ((pull places trees).1 ++ (pull places trees).2.values).Perm trees.values := by
  induction places generalizing trees with
  | nil => exact .refl _
  | cons place places ih =>
    have later := (ih (trees.erase place)).append_left (trees.get? place).toList
    rw [← List.append_assoc] at later
    exact later.trans (trees.values_perm place).symm

theorem elim_definitions (tree : Option Node) : tree.elim [] Node.definitions = tree.toList.flatMap Node.made := by
  cases tree with
  | none => rfl
  | some t => simp [Node.definitions_eq_made]

/-- What is held in between does not matter when handles are regrouped. -/
theorem perm_around {old rest new others : List Definition} (same : (new ++ others).Perm (old ++ rest))
    (between : List Definition) : (new ++ (between ++ others)).Perm (old ++ (between ++ rest)) :=
  (List.perm_append_comm_assoc new between others).trans
    ((same.append_left between).trans (List.perm_append_comm_assoc between old rest))

namespace Settled
variable {s : Session} {besides now : List Definition} {U : Definition → Prop}

theorem exact (settled : s.Settled []) : s.env.handles.Exact s.held := by
  obtain ⟨U, _, env⟩ := settled
  exact env.exact (List.Perm.refl _)

theorem start (setup : Setup) : (Session.start setup).Settled [] := by
  refine ⟨fun _ => False, fun d known => known.elim, ?_⟩
  rw [kept_start]
  obtain ⟨functions, handles⟩ := Env.assignAll_same setup.vars
    { output := ⟨setup.hostMode.getD setup.mode, ""⟩
      counters := if setup.counting then some {} else none
      journal := if setup.logging then some #[] else none }
  exact Env.Settled.initial functions handles

theorem perm (settled : s.Settled besides) (same : now.Perm besides) : s.Settled now := by
  obtain ⟨U, earlier, env⟩ := settled
  exact ⟨U, earlier, env.perm (same.append_right s.kept)⟩

/-- What keeps the counts right for everything else that is held also keeps them right in a session. -/
theorem change (settled : s.Settled besides) {after : Env}
    (keeps : ∀ U others, s.env.Settled U others → after.Settled U others) :
    { s with env := after }.Settled besides := by
  obtain ⟨U, earlier, env⟩ := settled
  exact ⟨U, earlier, keeps U _ env⟩

/-- Handles move between the program's units, the kept trees and what is held besides. -/
theorem move (settled : s.Settled besides) {program : Program} {trees : Table Node}
    (same : (now ++ (program.made ++ trees.values.flatMap Node.made)).Perm
      (besides ++ (s.program.made ++ s.loose))) :
    { s with program, trees }.Settled now := by
  obtain ⟨U, earlier, env⟩ := settled
  exact ⟨U, earlier, env.perm (perm_around same s.slots.values)⟩

theorem grow (settled : s.Settled besides) {next : Nat} {ds : List Definition} (fresh : Fresh s.nextId next ds)
    (more : s.nextId ≤ next)
    (closed : ∀ U : Definition → Prop, s.env.Settled U (besides ++ s.kept) →
      ∀ d ∈ ds, ∀ e ∈ d.body.made, U e ∨ e ∈ ds) :
    ∃ U : Definition → Prop, (∀ d, U d → d.id < next) ∧ (∀ d ∈ ds, U d) ∧ s.env.Settled U (besides ++ s.kept) := by
  obtain ⟨U, earlier, env⟩ := settled
  refine ⟨fun d => U d ∨ d ∈ ds, ?_, fun d member => Or.inr member, ?_⟩
  · intro d known
    rcases known with old | new
    · have lower := earlier d old
      omega
    · exact (fresh.range d new).2
  · exact env.mono (env.coherent.grow earlier fresh (closed U env)) fun d known => Or.inl known

theorem adopt (settled : s.Settled besides) (t : Node) :
    (s.adopt t).2.Settled ((s.adopt t).1.made ++ besides) := by
  obtain ⟨more, fresh⟩ := t.stampsFresh s.nextId
  obtain ⟨U, earlier, known, env⟩ := settled.grow fresh more fun _ _ d member e made =>
    Or.inr (Node.nested_closed member made)
  have kept := env.retain fun d made => known d (Node.made_subset_nested _ d made)
  rw [← List.append_assoc, ← Node.definitions_eq_made] at kept
  exact ⟨U, earlier, by rw [← Node.definitions_eq_made]; exact kept⟩

theorem adoptAll (settled : s.Settled besides) (ts : List Node) :
    (s.adoptAll ts).2.Settled ((s.adoptAll ts).1.toList.flatMap Node.made ++ besides) := by
  -- The trees taken in so far are held together with `besides`.
  have run : ∀ (done : Array Node) (s : Session) (result : Array Node × Session),
      s.Settled (done.toList.flatMap Node.made ++ besides) →
      ts.foldl (fun state t => (state.1.push (state.2.adopt t).1, (state.2.adopt t).2)) (done, s) = result →
      result.2.Settled (result.1.toList.flatMap Node.made ++ besides) := by
    induction ts with
    | nil =>
      rintro done s result settled rfl
      exact settled
    | cons t ts ih =>
      intro done s result settled folded
      refine ih (done.push (s.adopt t).1) (s.adopt t).2 result ?_ folded
      refine (settled.adopt t).perm ?_
      rw [Array.toList_push, List.flatMap_append, List.flatMap_singleton, List.append_assoc]
      exact List.perm_append_comm_assoc _ _ _
  exact run #[] s _ settled rfl

theorem discard {t : Node} (settled : s.Settled (t.made ++ besides)) : (s.discard t).Settled besides := by
  obtain ⟨U, earlier, env⟩ := settled
  rw [List.append_assoc, ← Node.definitions_eq_made] at env
  exact ⟨U, earlier, env.release⟩

theorem clearProgram (settled : s.Settled besides) : s.clearProgram.Settled besides := by
  have cleared : s.clearProgram =
      { s with
        program := {}
        env := s.program.units.toList.foldl (fun env t => env.release t.definitions) s.env } := by
    rw [Session.clearProgram, ← Array.foldl_toList, discardAll]
  have units : { s with program := {} }.Settled (s.program.made ++ besides) := by
    refine settled.move ?_
    rw [List.append_assoc]
    exact List.perm_append_comm_assoc _ _ _
  obtain ⟨U, earlier, env⟩ := units
  rw [List.append_assoc] at env
  rw [cleared]
  exact ⟨U, earlier, Env.Settled.releaseAll _ env⟩

theorem evalOnce (settled : s.Settled []) {fuel times : Nat} {t : Node} {next : Session} {xs : List Float}
    (ends : s.evalOnce fuel t times = some (next, xs)) : next.Settled [] := by
  simp only [Session.evalOnce, Option.bind_eq_bind, Option.bind_eq_some_iff, Prod.exists] at ends
  obtain ⟨ys, after, run, same⟩ := ends
  cases Option.some.inj same
  obtain ⟨U, earlier, env⟩ := settled.adopt t
  have known : ∀ d ∈ (s.adopt t).1.made, U d := by
    intro d made
    exact env.known_other (by simp [made])
  have evaluated : { (s.adopt t).2 with env := after }.Settled ((s.adopt t).1.made ++ []) :=
    ⟨U, earlier, env.evalTimes known run⟩
  exact evaluated.discard

/-- While a handle is put in a slot, the slot's former handle is still counted. -/
theorem counted_fill {d : Definition} (env : s.env.Settled U ([d] ++ s.kept)) (slot : String) :
    s.env.Settled U ((s.slots.get? slot).toList ++ (s.fill slot d).kept) := by
  refine env.perm ?_
  have all := (s.slots.displaced_perm slot d).append_right (s.program.made ++ s.loose)
  rw [List.append_assoc] at all
  exact all

theorem fill {d : Definition} (earlier : ∀ e, U e → e.id < s.nextId) (env : s.env.Settled U ([d] ++ s.kept))
    (slot : String) : (s.fill slot d).Settled [] :=
  ⟨U, earlier, (counted_fill env slot).release⟩

theorem retain {d : Definition} (env : s.env.Settled U s.kept) (known : U d) :
    (s.env.retain [d]).Settled U ([d] ++ s.kept) := by
  refine env.retain ?_
  simpa using known

theorem keep {d : Definition} (earlier : ∀ e, U e → e.id < s.nextId) (env : s.env.Settled U s.kept) (known : U d)
    (slot : String) : (s.keep slot d).1.Settled [] :=
  fill (s := { s with env := s.env.retain [d] }) earlier (retain env known) slot

/-- While a tree is put at a place, what stood there is still counted. -/
theorem counted_store {t : Node} (env : s.env.Settled U (t.made ++ s.kept)) (place : String) :
    s.env.Settled U ((s.trees.get? place).toList.flatMap Node.made ++ (s.store place t).kept) := by
  refine env.perm ?_
  have trees := (s.trees.displaced_perm place t).flatMap_right Node.made
  rw [List.flatMap_append, List.flatMap_cons] at trees
  exact perm_around (perm_around trees s.program.made) s.slots.values

theorem store {t : Node} (earlier : ∀ d, U d → d.id < s.nextId) (env : s.env.Settled U (t.made ++ s.kept))
    (place : String) : (s.store place t).Settled [] := by
  have counted := counted_store env place
  rw [← elim_definitions] at counted
  exact ⟨U, earlier, counted.release⟩

theorem drop (settled : s.Settled []) (slot : String) :
    { s with slots := s.slots.erase slot, env := s.env.release (s.slots.get? slot).toList }.Settled [] := by
  obtain ⟨U, earlier, env⟩ := settled
  refine ⟨U, earlier, Env.Settled.release ?_⟩
  have whole := (s.slots.values_perm slot).append_right (s.program.made ++ s.loose)
  rw [List.append_assoc] at whole
  exact env.perm whole.symm

/-- A tree that is taken from its place is held besides. -/
theorem lift (settled : s.Settled []) (place : String) :
    { s with trees := s.trees.erase place }.Settled ((s.trees.get? place).toList.flatMap Node.made) := by
  refine settled.move ?_
  have whole := (s.trees.values_perm place).symm.flatMap_right Node.made
  rw [List.flatMap_append] at whole
  exact perm_around whole s.program.made

theorem uproot (settled : s.Settled []) (place : String) :
    { s with
      trees := s.trees.erase place
      env := s.env.release ((s.trees.get? place).elim [] Node.definitions) }.Settled [] := by
  obtain ⟨U, earlier, env⟩ := settled.lift place
  rw [← elim_definitions] at env
  exact ⟨U, earlier, env.release⟩

theorem graft (settled : s.Settled []) {place hole source : String} {trees : Table Node}
    (grafted : s.grafted? place hole source = some trees) : { s with trees }.Settled [] := by
  simp only [grafted?, Option.bind_eq_bind, Option.bind_eq_some_iff] at grafted
  obtain ⟨inner, below, outer, above, grown, filled, same⟩ := grafted
  cases Option.some.inj same
  refine settled.move (perm_around ?_ s.program.made)
  let rest := (s.trees.erase source).erase place
  have first := (s.trees.values_perm source).flatMap_right Node.made
  have second := ((s.trees.erase source).values_perm place).flatMap_right Node.made
  have last := ((s.trees.erase source).values_insert_perm place grown).flatMap_right Node.made
  rw [below, Option.toList_some, List.singleton_append, List.flatMap_cons] at first
  rw [above, Option.toList_some, List.singleton_append, List.flatMap_cons] at second
  rw [List.flatMap_cons] at last
  have joined := (Node.made_graftInto filled).append_right (rest.values.flatMap Node.made)
  rw [List.append_assoc] at joined
  exact last.trans (joined.trans ((second.symm.append_left inner.made).trans first.symm))

theorem known_unit (env : s.env.Settled U s.kept) {t : Node} (unit : t ∈ s.program.units.toList) :
    ∀ d ∈ t.made, U d := by
  intro d made
  refine env.known_other (List.mem_append_right _ (List.mem_append_left _ ?_))
  exact List.mem_flatMap.mpr ⟨t, unit, made⟩

theorem known_slot (env : s.env.Settled U s.kept) {slot : String} {d : Definition}
    (found : s.slots.get? slot = some d) : U d :=
  env.known_other (List.mem_append_left _ (Table.mem_values.mpr ⟨slot, found⟩))

theorem known_tree (env : s.env.Settled U s.kept) {place : String} {t : Node}
    (found : s.trees.get? place = some t) :
    ∀ d ∈ t.made, U d := by
  intro d made
  refine env.known_other (List.mem_append_right _ (List.mem_append_right _ ?_))
  exact List.mem_flatMap.mpr ⟨t, Table.mem_values.mpr ⟨place, found⟩, made⟩

/-- Wherever the host finds a tree, its definitions are known. -/
theorem known_source (env : s.env.Settled U s.kept) {source : Source} {t : Node} (found : s.find? source = some t) :
    ∀ d ∈ t.made, U d := by
  cases source with
  | tree place => exact known_tree env found
  | unit index => exact known_unit env (Array.mem_toList_iff.mpr (Array.mem_of_getElem? found))
  | body slot =>
    obtain ⟨e, holds, rfl⟩ := Option.map_eq_some_iff.mp found
    exact env.coherent.closed e (known_slot env holds)

theorem make (settled : s.Settled []) (name : String) (params : Params) (body : Node) :
    ∃ U : Definition → Prop, (∀ d, U d → d.id < (body.stamp s.nextId).2 + 1) ∧
      U ⟨(body.stamp s.nextId).2, name, params, (body.stamp s.nextId).1⟩ ∧ s.env.Settled U s.kept := by
  obtain ⟨more, fresh⟩ := body.stampsFresh s.nextId
  let d : Definition := ⟨(body.stamp s.nextId).2, name, params, (body.stamp s.nextId).1⟩
  have closed : ∀ e ∈ d :: d.body.nested, ∀ f ∈ e.body.made, f ∈ d :: d.body.nested := by
    rw [← nested_toNode]
    exact fun e member f made => Node.nested_closed member made
  obtain ⟨U, earlier, known, env⟩ := settled.grow (fresh.cons d rfl more) (by omega) fun _ _ e member f made =>
    Or.inr (closed e member f made)
  exact ⟨U, earlier, known d List.mem_cons_self, env⟩

/-- A definition whose body is a tree that was kept. It comes to life and counts what its body holds, and then the
tree is not counted any more. -/
theorem enclose (settled : s.Settled []) {place : String} {body : Node} (found : s.trees.get? place = some body)
    (name : String) (params : Params) :
    ∃ U : Definition → Prop, (∀ d, U d → d.id < s.nextId + 1) ∧
      ((s.env.retain [⟨s.nextId, name, params, body⟩]).release body.definitions).Settled U
        ([⟨s.nextId, name, params, body⟩] ++ Session.kept { s with trees := s.trees.erase place }) := by
  let d : Definition := ⟨s.nextId, name, params, body⟩
  have lifted := settled.lift place
  rw [found, Option.toList_some, List.flatMap_singleton] at lifted
  have fresh : Fresh s.nextId (s.nextId + 1) [d] := by
    refine Fresh.cons ?_ d rfl (Nat.le_refl _)
    exact .nil _ _
  obtain ⟨U, earlier, known, env⟩ := lifted.grow fresh (Nat.le_succ _) fun U env e member f made => by
    rw [List.mem_singleton.mp member] at made
    exact Or.inl (env.known_other (List.mem_append_left _ made))
  refine ⟨U, earlier, Env.Settled.release ?_⟩
  rw [Node.definitions_eq_made]
  exact (env.retain known).perm (List.perm_append_comm_assoc _ _ _)

theorem register (settled : s.Settled []) (name : String) {slot : String} {d : Definition}
    (found : s.slots.get? slot = some d) :
    { s with env := (s.env.setFunction name d).2.release (s.env.functions.get? name).toList }.Settled [] := by
  obtain ⟨U, earlier, env⟩ := settled
  exact ⟨U, earlier, (env.setFunction name (known_slot env found)).release⟩

theorem withSlot (settled : s.Settled []) {slot : String} {answer : Definition → Session × Reply}
    (each : ∀ d, s.slots.get? slot = some d → (answer d).1.Settled []) : (s.withSlot slot answer).1.Settled [] := by
  unfold Session.withSlot
  split
  · exact settled
  · next d found => exact each d found

end Settled

end Session

end TreeCalc
