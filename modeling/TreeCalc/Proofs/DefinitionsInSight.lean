import TreeCalc.Proofs.MadeDefinitions
import TreeCalc.Proofs.TableChanges
import TreeCalc.Proofs.Trails

namespace TreeCalc

/-- A definition is in sight when it is made, at whatever depth, in the tree or in the body of a registered
function. -/
def Env.InSight (env : Env) (t : Node) (d : Definition) : Prop :=
  d ∈ t.nested ∨ ∃ name e, env.functions.get? name = some e ∧ d ∈ e.body.nested

namespace Definition

/-- The last definition of a name. -/
def last? (ds : List Definition) (name : String) : Option Definition := ds.reverse.find? (·.name = name)

theorem last?_cons (d : Definition) (ds : List Definition) (name : String) :
    last? (d :: ds) name = (last? ds name).or (if d.name = name then some d else none) := by
  rw [last?, List.reverse_cons, List.find?_append, List.find?_singleton, ← last?]
  simp

theorem mem_of_last? {ds : List Definition} {name : String} {d : Definition} (last : last? ds name = some d) :
    d ∈ ds ∧ d.name = name :=
  ⟨List.mem_reverse.mp (List.mem_of_find?_eq_some last), by simpa using List.find?_some last⟩

def register (table : Table Definition) (d : Definition) : Table Definition := table.insert d.name d

/-- When definitions are registered one after the other, each name has its last one. -/
theorem get?_registers (ds : List Definition) (table : Table Definition) (name : String) :
    (ds.foldl register table).get? name = (last? ds name).or (table.get? name) := by
  induction ds generalizing table with
  | nil => rfl
  | cons d ds ih =>
    rw [List.foldl_cons, ih, last?_cons, Option.or_assoc, register, Table.get?_insert]
    split <;> rfl

end Definition

namespace Machine

/-- The definition that the machine is about to evaluate, if it is about to evaluate one. -/
def Config.defined (c : Config) : List Definition :=
  match c.task with
  | .eval t => t.definition?.toList
  | .bind .. | .give _ => []

/-- A step registers the definition that it evaluates, and no other step touches the table of functions. -/
theorem step_functions (c next : Config) (one : step c = some next) :
    next.env.functions = c.defined.foldl Definition.register c.env.functions := by
  have edits : c.changes.filterMap Change.functions? = c.defined.map fun d => .put d.name (some d) := by
    obtain ⟨task, stack, env⟩ := c
    cases task with
    | eval t =>
      cases own : t.definition? <;> simp [Config.changes, Config.defined, own, Change.register, Change.functions?]
    | bind d saved params args => cases params <;> cases args <;> rfl
    | give x =>
      cases stack with
      | nil => rfl
      | cons frame stack =>
        cases frame with
        | finish d saved => simp [Config.changes, Config.defined, Change.putBack, Change.functions?]
        | _ => rfl
  have tables := step_tables c next one
  rw [Tables.changes_apart, edits, List.foldl_map] at tables
  exact congrArg Tables.functions tables

theorem Config.start_all (t : Node) (env : Env) :
    (Config.mk (.eval t) [] env).All fun s => ∀ d ∈ s.nested, env.InSight t d where
  trees s member d inside := by
    have same : s = t := by simpa [Config.trees, Task.trees] using member
    exact Or.inl (same ▸ inside)
  running d member := by simp [Config.running, Task.held] at member
  functions name e found d inside := Or.inr ⟨name, e, found, inside⟩

end Machine

namespace Node

/-- The definitions that are evaluated in a run, in order. -/
def executed (t : Node) (fuel : Nat) (env : Env) : List Definition := t.trail Machine.Config.defined fuel env

/-- A run finds definitions nowhere but in its tree and in the functions that it finds registered. -/
theorem inSight_of_executed {t : Node} {fuel : Nat} {env : Env} : ∀ d ∈ t.executed fuel env, env.InSight t d := by
  -- The body of a definition is a child of it, so what a run registers brings nothing that was not in sight before.
  have passes : ∀ s, (∀ d ∈ nested s, env.InSight t d) → ∀ child ∈ s.children, ∀ d ∈ child.nested,
      env.InSight t d := by
    intro s sees child below d inside
    exact sees d (mem_nested.mpr (Or.inr ⟨child, below, inside⟩))
  refine Machine.forall_trail (fun c next all one => all.step passes one) ?_ (Machine.Config.start_all t env)
  intro c all d member
  obtain ⟨task, stack, now⟩ := c
  cases task with
  | bind | give => simp [Machine.Config.defined] at member
  | eval s =>
    refine all.trees s (by simp [Machine.Config.trees, Task.trees]) d ?_
    rw [nested_eq]
    exact List.mem_append_left _ member

theorem functions_evaluate {t : Node} {fuel : Nat} {env after : Env} {x : Float}
    (ends : t.evaluate fuel env = some (x, after)) :
    after.functions = (t.executed fuel env).foldl Definition.register env.functions :=
  Machine.run_follows (c := ⟨.eval t, [], env⟩) Machine.step_functions ends

/-- Evaluation adds no functions but those that were in sight. A registered name stays registered, whatever a run
replaces or calls. Under each name there is in the end the last of the definitions of that name which the run
evaluated, be it in the tree, in an argument or in the body of a function that ran, and where it evaluated none
there is what was there before. So an entry that was not there before stands under its own name and was made in
the tree or in a function registered at the start. -/
theorem functions_in_sight {t : Node} {fuel : Nat} {env after : Env} {x : Float}
    (ends : t.evaluate fuel env = some (x, after)) :
    (∀ name, env.functions.contains name = true → after.functions.contains name = true) ∧
    (∀ name d, after.functions.get? name = some d →
      env.functions.get? name = some d ∨ d.name = name ∧ env.InSight t d) ∧
    (∀ name, after.functions.get? name =
      (Definition.last? (t.executed fuel env) name).or (env.functions.get? name)) ∧
    ∀ d ∈ t.executed fuel env, env.InSight t d := by
  have entry : ∀ name, after.functions.get? name =
      (Definition.last? (t.executed fuel env) name).or (env.functions.get? name) := by
    intro name
    rw [functions_evaluate ends, Definition.get?_registers]
  refine ⟨?_, ?_, entry, inSight_of_executed⟩
  · intro name before
    rw [Table.contains] at before ⊢
    rw [entry, Option.isSome_or, before, Bool.or_true]
  · intro name d found
    rw [entry, Option.or_eq_some_iff] at found
    rcases found with last | ⟨-, before⟩
    · obtain ⟨member, own⟩ := Definition.mem_of_last? last
      exact Or.inr ⟨own, inSight_of_executed d member⟩
    · exact Or.inl before

end Node

/-- A function that replaces itself while it runs, and one that is registered under a name which is not its own. -/
def Env.replacing : Env where
  functions :=
    (Table.empty.insert "f" ⟨1, "f", ⟨"p", []⟩, .seq (.define 2 "f" ⟨"q", []⟩ (.var "q")) (.var "p")⟩).insert
      "h" ⟨3, "g", ⟨"x", []⟩, .var "x"⟩
  output := ⟨.silent, ""⟩

/-- The definition in the argument is evaluated before the one in the body. -/
theorem Node.functions_in_sight_whileRunning :
    ∃ x after d, (call "f" [define 4 "k" ⟨"r", []⟩ (num 1.0)]).evaluate 30 .replacing = some (x, after) ∧
      ((call "f" [define 4 "k" ⟨"r", []⟩ (num 1.0)]).executed 30 .replacing).map Definition.id = [4, 2] ∧
      after.functions.get? "f" = some d ∧ d.id = 2 ∧
      Env.InSight .replacing (call "f" [define 4 "k" ⟨"r", []⟩ (num 1.0)]) d ∧
      (after.functions.get? "k").map Definition.id = some 4 ∧
        (after.functions.get? "h").map Definition.id = some 3 := by
  let tree : Node := call "f" [define 4 "k" ⟨"r", []⟩ (num 1.0)]
  have ends : (tree.evaluate 30 .replacing).isSome = true := by decide +kernel
  obtain ⟨⟨x, after⟩, run⟩ := Option.isSome_iff_exists.mp ends
  obtain ⟨-, entries, lasts, -⟩ := functions_in_sight run
  have f : (after.functions.get? "f").map Definition.id = some 2 :=
    (congrArg _ (lasts "f")).trans (by decide +kernel)
  have k : (after.functions.get? "k").map Definition.id = some 4 :=
    (congrArg _ (lasts "k")).trans (by decide +kernel)
  have h : (after.functions.get? "h").map Definition.id = some 3 :=
    (congrArg _ (lasts "h")).trans (by decide +kernel)
  obtain ⟨d, found, id⟩ := Option.map_eq_some_iff.mp f
  refine ⟨x, after, d, run, by decide +kernel, found, id, ?_, k, h⟩
  rcases entries "f" d found with before | ⟨-, seen⟩
  · have old : (Env.replacing.functions.get? "f").map Definition.id = some 1 := by decide +kernel
    simp [before, id] at old
  · exact seen

end TreeCalc
