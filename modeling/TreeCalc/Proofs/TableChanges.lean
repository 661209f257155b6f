import TreeCalc.Env.Seed
import TreeCalc.Proofs.MachineSteps

namespace TreeCalc

namespace Table
variable {α : Type}

/-- A change to a table: a name gets a binding or loses it, or all names lose theirs. -/
inductive Edit (α : Type) where
  | put (name : String) (binding : Option α)
  | clear
  deriving DecidableEq

def edit (table : Table α) : Edit α → Table α
  | .put name binding => table.put name binding
  | .clear => Table.empty

namespace Edit

/-- What a change makes of the binding that one name has. -/
def rebind (name : String) (binding : Option α) : Edit α → Option α
  | put other new => if other = name then new else binding
  | clear => none

/-- The binding of a name after changes to a table that was empty. -/
def bindingAfter (edits : List (Edit α)) (name : String) : Option α := edits.foldl (rebind name) none

end Edit

/-- The binding of a name changes as if there were no other name. -/
theorem get?_edits (edits : List (Edit α)) (table : Table α) (name : String) :
    (edits.foldl edit table).get? name = edits.foldl (Edit.rebind name) (table.get? name) := by
  induction edits generalizing table with
  | nil => rfl
  | cons e edits ih =>
    have first : (table.edit e).get? name = Edit.rebind name (table.get? name) e := by
      cases e with
      | put other binding => exact get?_put table other name binding
      | clear => exact get?_empty name
    rw [List.foldl_cons, ih, first, List.foldl_cons]

theorem get?_edits_empty (edits : List (Edit α)) (name : String) :
    (edits.foldl edit empty).get? name = Edit.bindingAfter edits name := by
  rw [get?_edits, get?_empty, Edit.bindingAfter]

end Table

/-- A change to one of the two tables of an environment. -/
inductive Change where
  | vars (edit : Table.Edit Float)
  | functions (edit : Table.Edit Definition)

namespace Change

def vars? : Change → Option (Table.Edit Float)
  | vars edit => some edit
  | functions _ => none

def functions? : Change → Option (Table.Edit Definition)
  | vars _ => none
  | functions edit => some edit

/-- The binding of a variable after changes to tables that were empty. -/
def variableAfter (changes : List Change) (name : String) : Option Float :=
  Table.Edit.bindingAfter (changes.filterMap vars?) name

/-- The function under a name after changes to tables that were empty. -/
def functionAfter (changes : List Change) (name : String) : Option Definition :=
  Table.Edit.bindingAfter (changes.filterMap functions?) name

/-- A variable gets a value. -/
def assign (binding : String × Float) : Change := .vars (.put binding.1 (some binding.2))

/-- A variable goes back to what it was. -/
def putBack (binding : String × Option Float) : Change := .vars (.put binding.1 binding.2)

def register (name : String) (d : Definition) : Change := .functions (.put name (some d))

end Change

structure Tables where
  vars : Table Float := {}
  functions : Table Definition := {}

namespace Tables

def change (tables : Tables) : Change → Tables
  | .vars edit => { tables with vars := tables.vars.edit edit }
  | .functions edit => { tables with functions := tables.functions.edit edit }

/-- The two tables change apart from each other. -/
theorem changes_apart (changes : List Change) (tables : Tables) :
    changes.foldl change tables = ⟨(changes.filterMap Change.vars?).foldl Table.edit tables.vars,
      (changes.filterMap Change.functions?).foldl Table.edit tables.functions⟩ := by
  induction changes generalizing tables with
  | nil => rfl
  | cons c changes ih =>
    rw [List.foldl_cons, ih]
    cases c <;> rfl

end Tables

def Env.tables (env : Env) : Tables := ⟨env.vars, env.functions⟩

theorem Env.tables_define (env : Env) (d : Definition) :
    (env.define d).tables = env.tables.change (.register d.name d) := by
  rw [tables, vars_define, functions_define]
  rfl

theorem Env.tables_restore (saved : Saved) (env : Env) :
    (env.restore saved).tables = (saved.map Change.putBack).foldl Tables.change env.tables := by
  rw [List.foldl_map]
  induction saved generalizing env with
  | nil => rfl
  | cons binding saved ih => exact ih { env with vars := env.vars.put binding.1 binding.2 }

theorem Env.tables_assignAll (bindings : List (String × Float)) (env : Env) :
    (env.assignAll bindings).tables = (bindings.map Change.assign).foldl Tables.change env.tables := by
  rw [List.foldl_map]
  induction bindings generalizing env with
  | nil => rfl
  | cons binding bindings ih => exact ih (env.assign binding.1 binding.2)

namespace Machine

/-- The changes to the tables in the step that the machine is about to do. -/
def Config.changes (c : Config) : List Change :=
  match c.task, c.stack with
  | .eval t, _ => t.definition?.toList.map fun d => .register d.name d
  | .bind _ _ (p :: _) [], _ => [.assign (p, 0.0)]
  | .bind _ _ _ _, _ => []
  | .give x, .assign name :: _ => [.assign (name, x)]
  | .give x, .bind _ _ p _ _ :: _ => [.assign (p, x)]
  | .give _, .finish _ saved :: _ => saved.map .putBack
  | .give _, _ => []

theorem enter_tables (t : Node) (stack : List Frame) (env : Env) :
    (enter t stack env).env.tables = (Config.mk (.eval t) stack env).changes.foldl Tables.change env.tables := by
  cases t with
  | define id name ps body => exact env.tables_define ⟨id, name, ps, body⟩
  | call name args =>
    simp only [enter]
    cases env.functions.get? name <;> rfl
  | _ => rfl

theorem resume_tables (x : Float) (frame : Frame) (stack : List Frame) (env : Env) :
    (resume x frame stack env).env.tables =
      (Config.mk (.give x) (frame :: stack) env).changes.foldl Tables.change env.tables := by
  cases frame with
  | finish d saved => exact Env.tables_restore saved (env.note (.event (.callReturned x)))
  | unary f =>
    simp only [resume]
    split <;> rfl
  | cond onTrue onFalse =>
    simp only [resume]
    split <;> rfl
  | _ => rfl

theorem step_tables (c next : Config) (one : step c = some next) :
    next.env.tables = c.changes.foldl Tables.change c.env.tables := by
  obtain ⟨task, stack, env⟩ := c
  cases task with
  | eval t =>
    cases Option.some.inj one
    exact enter_tables t stack env
  | bind d saved params args =>
    cases params with
    | nil =>
      cases Option.some.inj one
      rfl
    | cons p ps => cases args <;> cases Option.some.inj one <;> rfl
  | give x =>
    cases stack with
    | nil => cases one
    | cons frame stack =>
      cases Option.some.inj one
      exact resume_tables x frame stack env

end Machine

end TreeCalc
