import TreeCalc.Proofs.SessionRuns
import TreeCalc.Proofs.SessionTrails
import TreeCalc.Proofs.TableChanges

namespace TreeCalc

/-- Evaluations change the tables as their steps do. -/
theorem Tables.tracked : Tracked Machine.Config.changes Env.tables Tables.change where
  evaluate {t _ env _ _} ends := Machine.run_follows (c := ⟨.eval t, [], env⟩) Machine.step_tables ends
  note _ _ := rfl
  uncounted _ := rfl

namespace Session

/-- The changes that a request brings about. -/
def changes (s : Session) (fuel : Nat) : Request → List Change
  | .set name x => [.assign (name, x)]
  | .remove name => [.vars (.put name none)]
  | .clearVariables => [.vars .clear]
  | .seed text => (Seed.read text).toOption.elim [] (·.map .assign)
  | .register name slot => (s.slots.get? slot).elim [] fun d => [.register name d]
  | .clearFunctions => [.functions .clear]
  | request => s.trail Machine.Config.changes fuel request

/-- The tables change as the changes of a request say. -/
theorem serve_tables {s next : Session} {fuel : Nat} {request : Request} {reply : Reply}
    (served : s.serve fuel request = some (next, reply)) :
    next.env.tables = (s.changes fuel request).foldl Tables.change s.env.tables := by
  cases request with
  | eval | evalList | evalAt | run | runUnit => exact Tables.tracked.serve rfl served
  | seed text =>
    simp only [serve, Env.seed] at served
    simp only [changes]
    cases bindings : Seed.read text with
    | error e =>
      rw [bindings] at served
      cases Option.some.inj served
      rfl
    | ok list =>
      rw [bindings] at served
      cases Option.some.inj served
      exact Env.tables_assignAll list s.env
  | register name slot =>
    obtain rfl := congrArg Prod.fst (Option.some.inj served)
    simp only [changes, withSlot, Env.setFunction]
    cases s.slots.get? slot with
    | none => rfl
    | some d => cases s.env.functions.get? name <;> rfl
  | set | remove | clearVariables | clearFunctions | clearOutput | print =>
    cases Option.some.inj served
    rfl
  | _ => exact Tables.tracked.congr (serve_quiet rfl served)

/-- The sessions that a host can come to, with all changes to their tables, those made when the session was set up
included. -/
def Chronicle (setup : Setup) (changes : List Change) (s : Session) : Prop :=
  Recorded Session.changes setup (setup.vars.map .assign) changes s

section
variable {setup : Setup} {changes : List Change} {s : Session}

theorem Chronicle.start : Chronicle setup (setup.vars.map .assign) (Session.start setup) := Recorded.start

theorem Chronicle.serve {next : Session} {reply : Reply} (before : Chronicle setup changes s) (fuel : Nat)
    (request : Request) (served : s.serve fuel request = some (next, reply)) :
    Chronicle setup (changes ++ s.changes fuel request) next :=
  Recorded.serve before fuel request served

/-- The tables of a session are what its history made of empty ones. -/
theorem Chronicle.tables (past : Chronicle setup changes s) :
    s.env.tables = ⟨(changes.filterMap Change.vars?).foldl Table.edit Table.empty,
      (changes.filterMap Change.functions?).foldl Table.edit Table.empty⟩ := by
  have replayed : s.env.tables = changes.foldl Tables.change {} :=
    Recorded.follows (Env.tables_assignAll setup.vars _) serve_tables past
  exact replayed.trans (Tables.changes_apart changes {})

theorem Chronicle.get?_vars (past : Chronicle setup changes s) (name : String) :
    s.env.vars.get? name = Change.variableAfter changes name :=
  (congrArg (·.vars.get? name) past.tables).trans (Table.get?_edits_empty _ name)

theorem Chronicle.get?_functions (past : Chronicle setup changes s) (name : String) :
    s.env.functions.get? name = Change.functionAfter changes name :=
  (congrArg (·.functions.get? name) past.tables).trans (Table.get?_edits_empty _ name)

end

end Session

end TreeCalc
