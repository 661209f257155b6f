import TreeCalc.Env.Basic

namespace TreeCalc

/-- A journal with its spans as trees: an event, or a span with all that was noted between its beginning and its
end. -/
inductive Record where
  | event (e : Event)
  | span (s : Span) (inside : List Record)

namespace Record

mutual

/-- The entries of a record: a span is closed by the kind of span that was opened. -/
def entries : Record → List Entry
  | event e => [.event e]
  | span s inside => .enter s :: (entriesAll inside ++ [.exit s.kind])

def entriesAll : List Record → List Entry
  | [] => []
  | record :: records => record.entries ++ entriesAll records

end

theorem entriesAll_append (records more : List Record) :
    entriesAll (records ++ more) = entriesAll records ++ entriesAll more := by
  induction records with
  | nil => rfl
  | cons record records ih => rw [List.cons_append, entriesAll, entriesAll, ih, List.append_assoc]

theorem entriesAll_singleton (record : Record) : entriesAll [record] = record.entries := by
  rw [entriesAll, entriesAll, List.append_nil]

theorem entriesAll_call (depth : Nat) (name : String) (inside : List Record) (x : Float) :
    entriesAll [.span (.call depth name) (.event .enteringBody :: (inside ++ [.event (.callReturned x)]))] =
      [.enter (.call depth name), .event .enteringBody] ++
        (entriesAll inside ++ [.event (.callReturned x), .exit .call]) := by
  simp [entriesAll, entries, entriesAll_append, Span.kind]

end Record

namespace Event

/-- Evaluating a definition notes one of these. -/
def registers : Event → Bool
  | registered .. | reregistered _ | replaced .. => true
  | unitEvaluated _ | undefinedCall | enteringBody | callReturned _ => false

end Event

namespace Entry

def opensCall : Entry → Bool
  | enter (.call ..) => true
  | _ => false

def closesCall : Entry → Bool
  | exit .call => true
  | _ => false

/-- The entry says that a call came to its end. -/
def returns : Entry → Bool
  | event (.callReturned _) => true
  | _ => false

end Entry

/-- What evaluation notes while `depth` calls run. Outside of calls there are registrations only. The span of a
call says how many calls run around it; in it stands that the name is unknown and nothing else, or first that the
body is entered and last that the call returned, with what the arguments and the body note in between, one call
deeper. -/
inductive Nested : Nat → List Record → Prop
  | nil {depth : Nat} : Nested depth []
  | registers {depth : Nat} {e : Event} {rest : List Record} (registers : e.registers = true)
      (later : Nested depth rest) :
      Nested depth (.event e :: rest)
  | unknown {depth : Nat} {name : String} {rest : List Record} (later : Nested depth rest) :
      Nested depth (.span (.call depth name) [.event .undefinedCall] :: rest)
  | call {depth : Nat} {name : String} {x : Float} {inside rest : List Record} (within : Nested (depth + 1) inside)
      (later : Nested depth rest) :
      Nested depth
        (.span (.call depth name) (.event .enteringBody :: (inside ++ [.event (.callReturned x)])) :: rest)

theorem Nested.append {depth : Nat} {records more : List Record} (first : Nested depth records)
    (second : Nested depth more) : Nested depth (records ++ more) := by
  induction first with
  | nil => exact second
  | registers registers _ ih => exact .registers registers (ih second)
  | unknown _ ih => exact .unknown (ih second)
  | call within _ _ ih => exact .call within (ih second)

/-- What the host has been told so far, if it listens. -/
def Env.noted (env : Env) : Option (List Entry) := env.journal.map Array.toList

namespace Env

/-- What is noted in two parts is noted as one. -/
theorem map_append_append (noted : Option (List Entry)) (entries more : List Entry) :
    (noted.map (· ++ entries)).map (· ++ more) = noted.map (· ++ (entries ++ more)) := by
  rw [Option.map_map]
  exact congrArg (fun f => noted.map f) (funext fun before => List.append_assoc _ _ _)

theorem noted_note (env : Env) (entry : Entry) : (env.note entry).noted = env.noted.map (· ++ [entry]) := by
  simp only [noted, note, Option.map_map]
  exact congrArg (fun f => env.journal.map f) (funext fun journal => Array.toList_push)

theorem noted_rejectCall (env : Env) :
    env.rejectCall.noted = env.noted.map (· ++ [.event .undefinedCall, .exit .call]) := by
  rw [rejectCall, noted_note, noted_note, map_append_append]
  rfl

theorem noted_beginCall (env : Env) (name : String) (d : Definition) :
    ((env.openCall name).beginCall d).noted =
      env.noted.map (· ++ [.enter (.call env.callDepth name), .event .enteringBody]) := by
  have opened : (env.openCall name).noted = env.noted.map (· ++ [.enter (.call env.callDepth name)]) :=
    env.noted_note _
  have entered : ((env.openCall name).beginCall d).noted =
      (env.openCall name).noted.map (· ++ [.event .enteringBody]) :=
    noted_note _ _
  rw [entered, opened, map_append_append]
  rfl

theorem noted_endCall (env : Env) (d : Definition) (saved : Saved) (x : Float) :
    (env.endCall d saved x).noted = env.noted.map (· ++ [.event (.callReturned x), .exit .call]) := by
  have returned : (env.note (.event (.callReturned x))).noted = env.noted.map (· ++ [.event (.callReturned x)]) :=
    env.noted_note _
  have closed : (env.endCall d saved x).noted =
      (env.note (.event (.callReturned x))).noted.map (· ++ [.exit .call]) :=
    noted_note _ _
  rw [closed, returned, map_append_append]
  rfl

/-- Evaluating a definition notes one event, which says how it was registered. -/
theorem exists_noted_define (env : Env) (d : Definition) :
    ∃ e : Event, e.registers = true ∧ (env.define d).noted = env.noted.map (· ++ [.event e]) := by
  unfold define setFunction
  cases env.functions.get? d.name with
  | none => exact ⟨_, rfl, noted_note _ _⟩
  | some old =>
    refine ⟨_, ?_, noted_note _ _⟩
    split <;> rfl

end Env

end TreeCalc
