import Mathlib.Data.List.Induction
import TreeCalc.Machine.Agreement
import TreeCalc.Proofs.Restoring
import TreeCalc.Proofs.Scoped

namespace TreeCalc

/-- The scope of a running call, read off from what the call saved: it owns the saved names, with the values that
they have now. -/
def Saved.scope (saved : Saved) (vars : Table Float) : Scope :=
  saved.foldl (fun scope binding => scope.insert binding.1 (vars.get? binding.1)) Table.empty

namespace Saved

theorem scope_append (saved : Saved) (name : String) (binding : Option Float) (vars : Table Float) :
    scope (saved ++ [(name, binding)]) vars = (saved.scope vars).insert name (vars.get? name) := by
  simp only [scope, List.foldl_append, List.foldl_cons, List.foldl_nil]

theorem get?_scope_of_notMem {saved : Saved} {name : String} (free : name ∉ saved.names) (vars : Table Float) :
    (saved.scope vars).get? name = none := by
  induction saved using List.reverseRecOn with
  | nil => exact Table.get?_empty name
  | append_singleton saved binding ih =>
    have apart : name ∉ names saved ∧ binding.1 ≠ name := by
      simpa [names, eq_comm] using free
    rw [scope_append, Table.get?_insert, if_neg apart.2, ih apart.1]

theorem get?_scope_of_mem {saved : Saved} {name : String} (member : name ∈ saved.names) (vars : Table Float) :
    (saved.scope vars).get? name = some (vars.get? name) := by
  induction saved using List.reverseRecOn with
  | nil => simp [names] at member
  | append_singleton saved binding ih =>
    rw [scope_append, Table.get?_insert]
    split
    · next same => rw [same]
    · next apart =>
      have inside : name ∈ names saved := by
        have either : name ∈ names saved ∨ name = binding.1 := by simpa [names] using member
        exact either.resolve_right (fun same => apart same.symm)
      exact ih inside

theorem contains_scope (saved : Saved) (vars : Table Float) (name : String) :
    (saved.scope vars).contains name = true ↔ name ∈ saved.names := by
  by_cases member : name ∈ saved.names
  · simp [Table.contains, get?_scope_of_mem member, member]
  · simp [Table.contains, get?_scope_of_notMem member, member]

theorem scope_insert_of_mem {saved : Saved} {name : String} (member : name ∈ saved.names) (vars : Table Float)
    (x : Float) : saved.scope (vars.insert name x) = (saved.scope vars).insert name (some x) := by
  apply Table.ext
  intro other
  rw [Table.get?_insert]
  by_cases inside : other ∈ saved.names
  · rw [get?_scope_of_mem inside, get?_scope_of_mem inside, Table.get?_insert]
    split <;> rfl
  · have apart : name ≠ other := fun same => inside (same ▸ member)
    rw [get?_scope_of_notMem inside, get?_scope_of_notMem inside, if_neg apart]

theorem scope_insert_of_notMem {saved : Saved} {name : String} (free : name ∉ saved.names) (vars : Table Float)
    (x : Float) : saved.scope (vars.insert name x) = saved.scope vars := by
  apply Table.ext
  intro other
  by_cases inside : other ∈ saved.names
  · have apart : name ≠ other := fun same => free (same ▸ inside)
    rw [get?_scope_of_mem inside, get?_scope_of_mem inside, Table.get?_insert, if_neg apart]
  · rw [get?_scope_of_notMem inside, get?_scope_of_notMem inside]

end Saved

namespace ScopedEnv

/-- The scopes that one flat table stands for, given what the running calls saved, the innermost call first, and
the table that is left when all of them have put back theirs. -/
def unwind : List Saved → Table Float → List Scope × Table Float
  | [], vars => ([], vars)
  | saved :: calls, vars =>
    let below := unwind calls (saved.putBack vars)
    (saved.scope vars :: below.1, below.2)

/-- An environment with one flat table, seen as one with scopes. -/
def ofFlat (calls : List Saved) (env : Env) : ScopedEnv :=
  let unwound := unwind calls env.vars
  ⟨unwound.1, { env with vars := unwound.2 }⟩

theorem lookupIn_unwind (calls : List Saved) (vars : Table Float) (name : String) :
    lookupIn (unwind calls vars).2 name (unwind calls vars).1 = vars.get? name := by
  induction calls generalizing vars with
  | nil => rfl
  | cons saved calls ih =>
    simp only [unwind, lookupIn]
    by_cases member : name ∈ saved.names
    · rw [Saved.get?_scope_of_mem member, Option.getD_some]
    · rw [Saved.get?_scope_of_notMem member, Option.getD_none, ih, Saved.get?_putBack_of_notMem member]

theorem assignIn_unwind (calls : List Saved) (vars : Table Float) (name : String) (x : Float) :
    assignIn name x (unwind calls vars).2 (unwind calls vars).1 = unwind calls (vars.insert name x) := by
  induction calls generalizing vars with
  | nil => rfl
  | cons saved calls ih =>
    simp only [unwind, assignIn, Saved.contains_scope]
    split
    · next member => rw [Saved.putBack_insert_of_mem member, Saved.scope_insert_of_mem member]
    · next free => rw [Saved.putBack_insert_of_notMem free, Saved.scope_insert_of_notMem free, ih]

theorem lookup_ofFlat (calls : List Saved) (env : Env) (name : String) :
    (ofFlat calls env).lookup name = env.vars.get? name :=
  lookupIn_unwind calls env.vars name

theorem read_ofFlat (calls : List Saved) (env : Env) (name : String) :
    (ofFlat calls env).read name = env.read name := by
  rw [read, lookup_ofFlat, Env.read]

theorem assign_ofFlat (calls : List Saved) (env : Env) (name : String) (x : Float) :
    (ofFlat calls env).assign name x = ofFlat calls (env.assign name x) := by
  simp only [assign, ofFlat, assignIn_unwind, Env.assign]

/-- What an operation does without looking at variables it does in both views. -/
theorem outside_ofFlat {f : Env → Env} (blind : ∀ env vars, f { env with vars } = { f env with vars })
    (calls : List Saved) (env : Env) : (ofFlat calls env).outside f = ofFlat calls (f env) := by
  have same := congrArg Env.vars (blind env env.vars)
  have kept : (f env).vars = env.vars := same
  simp only [outside, ofFlat, kept]
  rw [blind]

theorem own_ofFlat (saved : Saved) (calls : List Saved) (env : Env) (name : String) :
    (ofFlat (saved :: calls) env).own name = ofFlat (env.save saved name :: calls) env := by
  have found := lookup_ofFlat (saved :: calls) env name
  simp only [ofFlat, unwind] at found ⊢
  rw [Env.putBack_save]
  simp only [own, Saved.contains_scope, found]
  split
  · next member => rw [Env.save_of_mem env member]
  · next free => rw [Env.save_of_notMem env free, Saved.scope_append]

theorem bind_ofFlat {saved : Saved} {name : String} (member : name ∈ saved.names) (calls : List Saved) (env : Env)
    (x : Float) : (ofFlat (saved :: calls) env).bind name x = ofFlat (saved :: calls) (env.assign name x) := by
  simp only [ofFlat, unwind, bind, Env.assign, Saved.putBack_insert_of_mem member, Saved.scope_insert_of_mem member]

theorem beginCall_ofFlat (calls : List Saved) (env : Env) (d : Definition) :
    (ofFlat calls env).beginCall d = ofFlat ([] :: calls) (env.beginCall d) := rfl

theorem define_blind (d : Definition) (env : Env) (vars : Table Float) :
    { env with vars }.define d = { env.define d with vars } := by
  simp only [Env.define, Env.setFunction]
  cases env.functions.get? d.name <;> rfl

/-- Two evaluators, one for each view, that come to the same results. -/
def Agree (ev : Node → Env → Outcome) (deep : Node → ScopedEnv → ScopedOutcome) : Prop :=
  ∀ t calls env, deep t (ofFlat calls env) = (ev t env).map fun r => (r.1, ofFlat calls r.2)

theorem Agree.bindParams {ev : Node → Env → Outcome} {deep : Node → ScopedEnv → ScopedOutcome}
    (agree : Agree ev deep) (calls : List Saved) (params : List String) (args : List Node) (saved : Saved)
    (env : Env) :
    bindParams deep params args (ofFlat (saved :: calls) env) =
      (TreeCalc.bindParams ev params args saved env).map fun r => ofFlat (r.1 :: calls) r.2 := by
  induction params generalizing args saved env with
  | nil => rfl
  | cons p ps ih =>
    have owned : p ∈ (env.save saved p).names := (env.mem_names_save saved p p).mpr (Or.inl rfl)
    cases args with
    | nil =>
      simp only [ScopedEnv.bindParams, TreeCalc.bindParams]
      rw [own_ofFlat, bind_ofFlat owned]
      exact ih [] _ _
    | cons a as =>
      simp only [ScopedEnv.bindParams, TreeCalc.bindParams]
      rw [own_ofFlat, agree]
      cases ev a env with
      | none => rfl
      | some r =>
        have bound := bind_ofFlat owned calls r.2 r.1
        simp only [Option.map_some, Option.bind_eq_bind, Option.bind_some, bound]
        exact ih as _ _

theorem Agree.callWith {ev : Node → Env → Outcome} {deep : Node → ScopedEnv → ScopedOutcome}
    (agree : Agree ev deep) (name : String) (args : List Node) (calls : List Saved) (env : Env) :
    callWith deep name args (ofFlat calls env) =
      (TreeCalc.callWith ev name args env).map fun r => (r.1, ofFlat calls r.2) := by
  have opened : (ofFlat calls env).outside (·.openCall name) = ofFlat calls (env.openCall name) :=
    outside_ofFlat (fun _ _ => rfl) calls env
  have table : (ofFlat calls (env.openCall name)).base.functions = (env.openCall name).functions := rfl
  simp only [ScopedEnv.callWith, TreeCalc.callWith]
  rw [opened, table]
  cases (env.openCall name).functions.get? name with
  | none =>
    simp only [Option.map_some]
    rw [outside_ofFlat (fun _ _ => rfl)]
  | some d =>
    simp only
    rw [beginCall_ofFlat, agree.bindParams]
    cases TreeCalc.bindParams ev d.params.names args [] ((env.openCall name).beginCall d) with
    | none => rfl
    | some bound =>
      simp only [Option.map_some, Option.bind_eq_bind, Option.bind_some]
      rw [agree]
      cases ev d.body bound.2 <;> rfl

/-- Agreement passes through a step that goes on from a value. -/
theorem Agree.bind {ev : Node → Env → Outcome} {deep : Node → ScopedEnv → ScopedOutcome} (agree : Agree ev deep)
    {t : Node} {calls : List Saved} {env : Env} {rest : Float × Env → Outcome}
    {deepRest : Float × ScopedEnv → ScopedOutcome}
    (next : ∀ x after, deepRest (x, ofFlat calls after) = (rest (x, after)).map fun r => (r.1, ofFlat calls r.2)) :
    (deep t (ofFlat calls env) >>= deepRest) = (ev t env >>= rest).map fun r => (r.1, ofFlat calls r.2) := by
  rw [agree]
  cases ev t env with
  | none => rfl
  | some r => exact next r.1 r.2

theorem Agree.evalWith {ev : Node → Env → Outcome} {deep : Node → ScopedEnv → ScopedOutcome}
    (agree : Agree ev deep) : Agree (TreeCalc.evalWith ev) (evalWith deep) := by
  intro t calls env
  cases t with
  | num | params => rfl
  | var name => simp only [ScopedEnv.evalWith, TreeCalc.evalWith, Option.map_some, read_ofFlat]
  | list head tail => exact agree head calls env
  | call name args => exact agree.callWith name args calls env
  | define id name ps body =>
    simp only [ScopedEnv.evalWith, TreeCalc.evalWith, Option.map_some]
    rw [outside_ofFlat (define_blind _)]
  | neg t => exact agree.bind fun x after => rfl
  | unary f t =>
    refine agree.bind fun x after => ?_
    simp only [Option.map_some]
    split
    · rw [outside_ofFlat (fun _ _ => rfl)]
    · rfl
  | assign name t =>
    refine agree.bind fun x after => ?_
    simp only [Option.map_some, assign_ofFlat]
  | arith | compare | binary => exact agree.bind fun x middle => agree.bind fun y after => rfl
  | seq first second => exact agree.bind fun x middle => agree second calls middle
  | cond test onTrue onFalse =>
    refine agree.bind fun x middle => ?_
    simp only
    cases (if x != 0.0 then onTrue else onFalse) with
    | none => rfl
    | some branch => exact agree branch calls middle

/-- Evaluation on one flat table, with bindings saved and put back, is evaluation with scopes. -/
theorem eval_agree (fuel : Nat) : Agree (TreeCalc.eval fuel) (eval fuel) := by
  induction fuel with
  | zero => intro t calls env; rfl
  | succ fuel ih => exact ih.evalWith

/-- Without a call that runs, the results with scopes are the results on the flat table. -/
theorem eval_eq_some_iff (fuel : Nat) (t : Node) (env : Env) (x : Float) (after : ScopedEnv) :
    eval fuel t ⟨[], env⟩ = some (x, after) ↔
      after.scopes = [] ∧ TreeCalc.eval fuel t env = some (x, after.base) := by
  have same : eval fuel t ⟨[], env⟩ = (TreeCalc.eval fuel t env).map fun r => (r.1, ⟨[], r.2⟩) :=
    eval_agree fuel t [] env
  rw [same]
  obtain ⟨scopes, base⟩ := after
  constructor
  · intro run
    obtain ⟨r, value, equal⟩ := Option.map_eq_some_iff.mp run
    cases equal
    exact ⟨rfl, value⟩
  · rintro ⟨rfl, value⟩
    rw [value]
    rfl

end ScopedEnv

/-- Saving and putting back bindings in one flat table is deep binding with one scope a call. A tree comes to an
end in the one reading just when it does in the other, with the same value and the same environment: no scope is
left, the outer table is the flat table, and functions, output, counters, handles and journal are the same. -/
theorem Node.evaluate_iff_scoped (t : Node) (env : Env) :
    ((∃ fuel r, t.evaluate fuel env = some r) ↔ ∃ fuel r, ScopedEnv.eval fuel t ⟨[], env⟩ = some r) ∧
      ∀ x after, (∃ fuel, ScopedEnv.eval fuel t ⟨[], env⟩ = some (x, after)) ↔
        after.scopes = [] ∧ ∃ fuel, t.evaluate fuel env = some (x, after.base) := by
  have results : ∀ x after, (∃ fuel, ScopedEnv.eval fuel t ⟨[], env⟩ = some (x, after)) ↔
      after.scopes = [] ∧ ∃ fuel, t.evaluate fuel env = some (x, after.base) := by
    intro x after
    simp only [ScopedEnv.eval_eq_some_iff, exists_and_left, t.exists_evaluate_iff]
  refine ⟨⟨?_, ?_⟩, results⟩
  · rintro ⟨fuel, ⟨x, after⟩, run⟩
    obtain ⟨other, run⟩ := (results x ⟨[], after⟩).mpr ⟨rfl, fuel, run⟩
    exact ⟨other, _, run⟩
  · rintro ⟨fuel, ⟨x, after⟩, run⟩
    obtain ⟨-, other, flat⟩ := (results x after).mp ⟨fuel, run⟩
    exact ⟨other, _, flat⟩

end TreeCalc
