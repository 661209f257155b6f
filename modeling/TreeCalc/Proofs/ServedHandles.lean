import TreeCalc.Proofs.QuietRequests
import TreeCalc.Proofs.SessionHandles
import TreeCalc.Proofs.SessionRuns

namespace TreeCalc.Session

variable {s next : Session} {fuel : Nat} {reply : Reply}

namespace Settled

/-- Evaluations keep the counts right. -/
theorem serve_evaluating {request : Request} (settled : s.Settled []) (evaluates : request.evaluates = true)
    (served : s.serve fuel request = some (next, reply)) : next.Settled [] := by
  cases serve_evaluated evaluates served with
  | eval ends => exact settled.evalOnce ends
  | evalList list ends => exact settled.evalOnce ends
  | evalAt found ends =>
    obtain ⟨U, earlier, env⟩ := settled
    exact ⟨U, earlier, env.evalTimes (known_source env found) ends⟩
  | run ends =>
    obtain ⟨U, earlier, env⟩ := settled
    exact ⟨U, earlier, env.evaluateFrom (fun t unit => known_unit env unit) ends⟩
  | @runUnit index t x after unit ends =>
    obtain ⟨U, earlier, env⟩ := settled
    have found : s.find? (.unit index) = some t := unit
    exact ⟨U, earlier, env.evaluateSpan (known_source env found) ends⟩
  | noList | noTree | noUnit => exact settled

/-- Trees that are held besides come to the program's units. -/
theorem append {ts : List Node} (settled : s.Settled (ts.flatMap Node.made)) {program : Program}
    (units : program.units.toList = s.program.units.toList ++ ts) : { s with program }.Settled [] := by
  refine settled.move ?_
  rw [Program.made, units, List.flatMap_append, List.nil_append, ← List.append_assoc]
  exact List.perm_append_comm.append_right _

theorem serve_add {t : Node} (settled : s.Settled []) (served : s.serve fuel (.add t) = some (next, reply)) :
    next.Settled [] := by
  obtain rfl := congrArg Prod.fst (Option.some.inj served)
  exact append (settled.adopt t) Array.toList_push

theorem serve_extend {ts : List Node} (settled : s.Settled [])
    (served : s.serve fuel (.extend ts) = some (next, reply)) : next.Settled [] := by
  obtain rfl := congrArg Prod.fst (Option.some.inj served)
  have adopted := settled.adoptAll ts
  rw [List.append_nil] at adopted
  exact adopted.append Array.toList_append

theorem serve_collect {ts : List Node} (settled : s.Settled [])
    (served : s.serve fuel (.collect ts) = some (next, reply)) : next.Settled [] := by
  obtain rfl := congrArg Prod.fst (Option.some.inj served)
  refine (settled.adoptAll ts).clearProgram.move ?_
  rw [List.append_nil]
  exact .refl _

/-- Kept trees that are pulled out of their places are held besides. -/
theorem pull (settled : s.Settled []) (places : List String) :
    { s with trees := (pull places s.trees).2 }.Settled ((pull places s.trees).1.flatMap Node.made) := by
  refine settled.move ?_
  have all := (pull_perm places s.trees).flatMap_right Node.made
  rw [List.flatMap_append] at all
  exact perm_around all s.program.made

theorem serve_addTrees {places : List String} (settled : s.Settled [])
    (served : s.serve fuel (.addTrees places) = some (next, reply)) : next.Settled [] := by
  obtain rfl := congrArg Prod.fst (Option.some.inj served)
  exact (settled.pull places).append Array.toList_appendList

theorem serve_collectTrees {places : List String} (settled : s.Settled [])
    (served : s.serve fuel (.collectTrees places) = some (next, reply)) : next.Settled [] := by
  obtain rfl := congrArg Prod.fst (Option.some.inj served)
  exact (settled.pull places).clearProgram.move (.refl _)

theorem serve_seed {text : String} (settled : s.Settled [])
    (served : s.serve fuel (.seed text) = some (next, reply)) : next.Settled [] := by
  cases bindings : Seed.read text with
  | error e =>
    simp only [serve, Env.seed, bindings, Except.map] at served
    cases Option.some.inj served
    exact settled
  | ok list =>
    simp only [serve, Env.seed, bindings, Except.map] at served
    cases Option.some.inj served
    obtain ⟨functions, handles⟩ := Env.assignAll_same list s.env
    exact settled.change fun U others env => env.of_same functions handles

theorem serve_hold {slot name : String} (settled : s.Settled [])
    (served : s.serve fuel (.hold slot name) = some (next, reply)) : next.Settled [] := by
  simp only [serve] at served
  split at served
  · cases Option.some.inj served
    exact settled
  · next d found =>
    obtain rfl : (s.keep slot d).1 = next := congrArg Prod.fst (Option.some.inj served)
    obtain ⟨U, earlier, env⟩ := settled
    exact keep earlier env (env.known_function found) slot

theorem serve_make {slot name : String} {params : Params} {body : Node} (settled : s.Settled [])
    (served : s.serve fuel (.make slot name params body) = some (next, reply)) : next.Settled [] := by
  obtain ⟨U, earlier, known, env⟩ := settled.make name params body
  obtain rfl : (Session.keep { s with nextId := (body.stamp s.nextId).2 + 1 } slot
    ⟨(body.stamp s.nextId).2, name, params, (body.stamp s.nextId).1⟩).1 = next :=
    congrArg Prod.fst (Option.some.inj served)
  exact keep (s := { s with nextId := _ }) earlier env known slot

theorem serve_copy {slot source : String} (settled : s.Settled [])
    (served : s.serve fuel (.copy slot source) = some (next, reply)) : next.Settled [] := by
  obtain rfl : (s.withSlot source (s.keep slot)).1 = next := congrArg Prod.fst (Option.some.inj served)
  refine settled.withSlot fun d found => ?_
  obtain ⟨U, earlier, env⟩ := settled
  exact keep earlier env (known_slot env found) slot

theorem serve_pick {slot : String} {source : Source} {index : Nat} (settled : s.Settled [])
    (served : s.serve fuel (.pick slot source index) = some (next, reply)) : next.Settled [] := by
  simp only [serve] at served
  split at served
  · cases Option.some.inj served
    exact settled
  · next d found =>
    obtain ⟨t, inside, listed⟩ := Option.bind_eq_some_iff.mp found
    obtain rfl : (s.keep slot d).1 = next := congrArg Prod.fst (Option.some.inj served)
    obtain ⟨U, earlier, env⟩ := settled
    have made : d ∈ t.made := t.definitions_eq_made ▸ List.mem_of_getElem? listed
    exact keep earlier env (known_source env inside d made) slot

theorem serve_register {name slot : String} (settled : s.Settled [])
    (served : s.serve fuel (.register name slot) = some (next, reply)) : next.Settled [] := by
  obtain rfl := congrArg Prod.fst (Option.some.inj served)
  refine settled.withSlot fun d found => ?_
  have registered : Session.Settled _ [] := settled.register name found
  cases former : s.env.functions.get? name with
  | none =>
    simp only [Env.setFunction, former]
    refine registered.change fun U others env => env.of_same rfl ?_
    simp [Env.release, Env.setFunction, former, Handles.release]
  | some old =>
    simp only [Env.setFunction, former] at registered ⊢
    exact registered

theorem serve_plant {place : String} {t : Node} (settled : s.Settled [])
    (served : s.serve fuel (.plant place t) = some (next, reply)) : next.Settled [] := by
  obtain rfl : (s.adopt t).2.store place (s.adopt t).1 = next := congrArg Prod.fst (Option.some.inj served)
  obtain ⟨U, earlier, env⟩ := settled.adopt t
  rw [List.append_nil] at env
  exact store earlier env place

theorem serve_wrap {place slot : String} (settled : s.Settled [])
    (served : s.serve fuel (.wrap place slot) = some (next, reply)) : next.Settled [] := by
  obtain rfl := congrArg Prod.fst (Option.some.inj served)
  refine settled.withSlot fun d found => ?_
  obtain ⟨U, earlier, env⟩ := settled
  exact store (s := { s with env := s.env.retain [d] }) (t := d.toNode) earlier
    (retain env (known_slot env found)) place

theorem serve_graft {place hole source : String} (settled : s.Settled [])
    (served : s.serve fuel (.graft place hole source) = some (next, reply)) : next.Settled [] := by
  simp only [serve] at served
  split at served
  · cases Option.some.inj served
    exact settled
  · next trees grafted =>
    cases Option.some.inj served
    exact settled.graft grafted

theorem serve_enclose {slot name place : String} {params : Params} (settled : s.Settled [])
    (served : s.serve fuel (.enclose slot name params place) = some (next, reply)) : next.Settled [] := by
  simp only [serve] at served
  split at served
  · cases Option.some.inj served
    exact settled
  · next body found =>
    cases Option.some.inj served
    obtain ⟨U, earlier, env⟩ := settled.enclose found name params
    exact fill (s := { s with env := _, trees := s.trees.erase place, nextId := s.nextId + 1 }) earlier env slot

end Settled

/-- Every request keeps the counts right. -/
theorem serve_settled {request : Request} (settled : s.Settled [])
    (served : s.serve fuel request = some (next, reply)) : next.Settled [] := by
  cases request with
  | eval | evalList | evalAt | run | runUnit => exact settled.serve_evaluating rfl served
  | add => exact settled.serve_add served
  | extend => exact settled.serve_extend served
  | collect => exact settled.serve_collect served
  | addTrees => exact settled.serve_addTrees served
  | collectTrees => exact settled.serve_collectTrees served
  | seed => exact settled.serve_seed served
  | hold => exact settled.serve_hold served
  | make => exact settled.serve_make served
  | copy => exact settled.serve_copy served
  | pick => exact settled.serve_pick served
  | register => exact settled.serve_register served
  | plant => exact settled.serve_plant served
  | wrap => exact settled.serve_wrap served
  | graft => exact settled.serve_graft served
  | enclose => exact settled.serve_enclose served
  | clear =>
    cases Option.some.inj served
    exact settled.clearProgram
  | drop slot =>
    cases Option.some.inj served
    exact settled.drop slot
  | uproot place =>
    cases Option.some.inj served
    exact settled.uproot place
  | set | remove | clearVariables | clearOutput | print =>
    cases Option.some.inj served
    exact settled.change fun U others env => env.of_same rfl rfl
  | clearFunctions =>
    cases Option.some.inj served
    exact settled.change fun U others env => env.clearFunctions
  | handles | describe | debugSlot =>
    obtain rfl := congrArg Prod.fst (Option.some.inj served)
    exact settled.withSlot fun d _ => settled
  | same left right =>
    obtain rfl := congrArg Prod.fst (Option.some.inj served)
    exact settled.withSlot fun d _ => settled.withSlot fun e _ => settled
  | _ =>
    cases Option.some.inj served
    exact settled

theorem Reached.settled (reached : s.Reached) : s.Settled [] :=
  reached.induct Settled.start fun _ _ _ _ _ settled served => serve_settled settled served

end TreeCalc.Session
