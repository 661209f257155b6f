import TreeCalc.Session

namespace TreeCalc.Session

/-- A request together with the session that served it. -/
structure Served where
  session : Session
  fuel : Nat
  request : Request

/-- The sessions that a host can come to, with all that they served so far. -/
inductive History (setup : Setup) : List Served → Session → Prop
  | start : History setup [] (Session.start setup)
  | serve {past : List Served} {s next : Session} {reply : Reply} (before : History setup past s) (fuel : Nat)
      (request : Request) (served : s.serve fuel request = some (next, reply)) :
      History setup (past ++ [⟨s, fuel, request⟩]) next

/-- The sessions that a host can come to. -/
def Reached (s : Session) : Prop := ∃ setup past, History setup past s

theorem Reached.start (setup : Setup) : (Session.start setup).Reached := ⟨setup, [], .start⟩

theorem Reached.serve {s next : Session} {fuel : Nat} {request : Request} {reply : Reply} (before : s.Reached)
    (served : s.serve fuel request = some (next, reply)) : next.Reached := by
  obtain ⟨setup, past, history⟩ := before
  exact ⟨setup, _, history.serve fuel request served⟩

/-- What all sessions have at the start, and keep from request to request, every session has. -/
theorem Reached.induct {P : Session → Prop} (start : ∀ setup, P (Session.start setup))
    (serve : ∀ (s next : Session) fuel request reply, P s → s.serve fuel request = some (next, reply) → P next)
    {s : Session} (reached : s.Reached) : P s := by
  obtain ⟨setup, past, history⟩ := reached
  induction history with
  | start => exact start setup
  | serve _ fuel request served ih => exact serve _ _ fuel request _ ih served

/-- Serves requests one after the other. -/
def serveAll (s : Session) (fuel : Nat) (requests : List Request) : Option Session :=
  requests.foldlM (fun s request => (s.serve fuel request).map Prod.fst) s

theorem Reached.serveAll {fuel : Nat} {requests : List Request} {s next : Session} (before : s.Reached)
    (served : s.serveAll fuel requests = some next) : next.Reached := by
  induction requests generalizing s with
  | nil =>
    cases Option.some.inj served
    exact before
  | cons request requests ih =>
    rw [Session.serveAll, List.foldlM_cons] at served
    obtain ⟨middle, first, rest⟩ := Option.bind_eq_some_iff.mp served
    obtain ⟨⟨_, reply⟩, answered, rfl⟩ := Option.map_eq_some_iff.mp first
    exact ih (before.serve answered) rest

section
variable {α β : Type} {note : Session → Nat → Request → List α} {setup : Setup} {first notes : List α} {s : Session}

/-- The sessions that a host can come to, with what was noted down on the way: something when the session was set
up, and something for every request. -/
def Recorded (note : Session → Nat → Request → List α) (setup : Setup) (first notes : List α) (s : Session) :
    Prop :=
  ∃ past, History setup past s ∧ notes = first ++ past.flatMap fun one => note one.session one.fuel one.request

theorem Recorded.start : Recorded note setup first first (Session.start setup) :=
  ⟨[], .start, (List.append_nil first).symm⟩

theorem Recorded.serve {next : Session} {reply : Reply} (before : Recorded note setup first notes s) (fuel : Nat)
    (request : Request) (served : s.serve fuel request = some (next, reply)) :
    Recorded note setup first (notes ++ note s fuel request) next := by
  obtain ⟨past, history, rfl⟩ := before
  refine ⟨_, history.serve fuel request served, ?_⟩
  rw [List.flatMap_append, List.flatMap_singleton, List.append_assoc]

theorem Recorded.induct {P : List α → Session → Prop} (start : P first (Session.start setup))
    (serve : ∀ notes (s next : Session) fuel request reply, P notes s → s.serve fuel request = some (next, reply) →
      P (notes ++ note s fuel request) next) (recorded : Recorded note setup first notes s) : P notes s := by
  obtain ⟨past, history, rfl⟩ := recorded
  induction history with
  | start =>
    rw [List.flatMap_nil, List.append_nil]
    exact start
  | serve _ fuel request served ih =>
    rw [List.flatMap_append, List.flatMap_singleton, ← List.append_assoc]
    exact serve _ _ _ fuel request _ ih served

/-- A view of the environment that every request changes as its notes say is changed as all notes say. -/
theorem Recorded.follows {view : Env → β} {change : β → α → β} {initial : β}
    (begins : view (Session.start setup).env = first.foldl change initial)
    (follows : ∀ {s next : Session} {fuel request reply}, s.serve fuel request = some (next, reply) →
      view next.env = (note s fuel request).foldl change (view s.env))
    (recorded : Recorded note setup first notes s) : view s.env = notes.foldl change initial := by
  refine Recorded.induct (P := fun notes s => view s.env = notes.foldl change initial) begins ?_ recorded
  intro notes s next fuel request reply before served
  rw [follows served, before, List.foldl_append]

end

end TreeCalc.Session
