import TreeCalc.Proofs.Acts
import TreeCalc.Proofs.SessionRuns
import TreeCalc.Proofs.SessionTrails

namespace TreeCalc

/-- Output and counters show what happens in evaluations. -/
theorem Watched.tracked : Tracked (fun c => c.act.toList) Env.watched Watched.record where
  evaluate := Node.evaluate_watched
  note _ _ := rfl
  uncounted _ := rfl

namespace Program

/-- What happens while a program is evaluated. -/
def acts (program : Program) (fuel : Nat) (env : Env) : List Act := program.trail (fun c => c.act.toList) fuel env

theorem evaluateAll_watched {program : Program} {fuel : Nat} {env after : Env} {x : Float}
    (ends : program.evaluateAll fuel env = some (x, after)) :
    after.watched = (program.acts fuel env).foldl Watched.record env.watched :=
  Watched.tracked.evaluateFrom ends

end Program

/-- What happens in a session that output and counters show: what happens in its evaluations, and what the host does
with the output. -/
inductive Deed where
  | act (a : Act)
  | print (line : String)
  | clear

namespace Deed

def act? : Deed → Option Act
  | act a => some a
  | print _ | clear => none

/-- What happened in evaluations. -/
def acts (deeds : List Deed) : List Act := deeds.filterMap act?

theorem acts_append (deeds more : List Deed) : acts (deeds ++ more) = acts deeds ++ acts more :=
  List.filterMap_append

theorem acts_map (as : List Act) : acts (as.map act) = as := by
  rw [acts, List.filterMap_map]
  exact List.filterMap_some

end Deed

/-- How the watched part shows a deed. -/
def Watched.undergo (w : Watched) : Deed → Watched
  | .act a => w.record a
  | .print line => { w with output := w.output.println line }
  | .clear => { w with output := w.output.clear }

theorem Env.assignAll_watched (bindings : List (String × Float)) (env : Env) :
    (env.assignAll bindings).watched = env.watched := by
  rw [assignAll_eq]
  rfl

namespace Session

/-- What happens in the evaluations that a request asks for. -/
def acts (s : Session) (fuel : Nat) (request : Request) : List Act := s.trail (fun c => c.act.toList) fuel request

def deeds (s : Session) (fuel : Nat) : Request → List Deed
  | .print line => [.print line]
  | .clearOutput => [.clear]
  | request => (s.acts fuel request).map .act

/-- The watched part changes as the deeds of a request say. -/
theorem serve_watched {s next : Session} {fuel : Nat} {request : Request} {reply : Reply}
    (served : s.serve fuel request = some (next, reply)) :
    next.env.watched = (s.deeds fuel request).foldl Watched.undergo s.env.watched := by
  have evaluated : ∀ (acts : List Act) (w : Watched),
      acts.foldl Watched.record w = (acts.map Deed.act).foldl Watched.undergo w := by
    intro acts w
    rw [List.foldl_map]
    rfl
  cases request with
  | eval | evalList | evalAt | run | runUnit => exact (Watched.tracked.serve rfl served).trans (evaluated _ _)
  | seed text =>
    cases bindings : Seed.read text with
    | error e =>
      simp only [serve, Env.seed, bindings, Except.map] at served
      cases Option.some.inj served
      rfl
    | ok list =>
      simp only [serve, Env.seed, bindings, Except.map] at served
      cases Option.some.inj served
      exact Env.assignAll_watched list s.env
  | register name slot =>
    obtain rfl := congrArg Prod.fst (Option.some.inj served)
    simp only [withSlot, Env.setFunction]
    cases s.slots.get? slot with
    | none => rfl
    | some d => cases s.env.functions.get? name <;> rfl
  | set | remove | clearVariables | clearFunctions | clearOutput | print =>
    cases Option.some.inj served
    rfl
  | _ => exact Watched.tracked.congr (serve_quiet rfl served)

/-- The sessions that a host can come to, with all that happened in them so far. -/
def Past (setup : Setup) (deeds : List Deed) (s : Session) : Prop := Recorded Session.deeds setup [] deeds s

section
variable {setup : Setup} {deeds : List Deed} {s : Session}

theorem Past.start : Past setup [] (Session.start setup) := Recorded.start

theorem Past.serve {next : Session} {reply : Reply} (before : Past setup deeds s) (fuel : Nat) (request : Request)
    (served : s.serve fuel request = some (next, reply)) : Past setup (deeds ++ s.deeds fuel request) next :=
  Recorded.serve before fuel request served

/-- The watched part of a session shows all that happened in it. -/
theorem Past.watched (past : Past setup deeds s) :
    s.env.watched = deeds.foldl Watched.undergo
      ⟨⟨setup.hostMode.getD setup.mode, ""⟩, if setup.counting then some {} else none, 0⟩ := by
  refine Recorded.follows ?_ serve_watched past
  exact Env.assignAll_watched setup.vars _

end

end Session

end TreeCalc
