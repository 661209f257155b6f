import TreeCalc.Counters
import TreeCalc.Handles
import TreeCalc.Journal
import TreeCalc.Output
import TreeCalc.Table

namespace TreeCalc

/-- All that evaluation reads and changes. There is one table of variables for all functions, and a call puts
the bindings of its parameters there for as long as it runs. -/
structure Env where
  vars : Table Float := {}
  functions : Table Definition := {}
  output : Output
  /-- How many calls are running. -/
  callDepth : Nat := 0
  /-- Absent when nothing is counted. -/
  counters : Option Counters := none
  handles : Handles := {}
  /-- What happened so far, in order; absent when nobody listens. -/
  journal : Option (Array Entry) := none

/-- Bindings to come back to: a name and the value it had, if it had one. -/
abbrev Saved := List (String × Option Float)

namespace Env

/-- The value of a variable, which is zero as long as it has none. -/
def read (env : Env) (name : String) : Float := (env.vars.get? name).getD 0.0

def assign (env : Env) (name : String) (value : Float) : Env :=
  { env with vars := env.vars.insert name value }

def remove (env : Env) (name : String) : Env := { env with vars := env.vars.erase name }

def clearVariables (env : Env) : Env := { env with vars := Table.empty }

/-- Adds an entry to the journal. -/
def note (env : Env) (entry : Entry) : Env := { env with journal := env.journal.map (·.push entry) }

def retain (env : Env) (ds : List Definition) : Env := { env with handles := env.handles.retain ds }

def release (env : Env) (ds : List Definition) : Env := { env with handles := env.handles.release ds }

/-- Counts and writes one displayed number. -/
def display (env : Env) (x : Float) : Env :=
  { env with counters := env.counters.map Counters.countDisplay, output := env.output.display x }

/-- Puts a new handle to a definition in the table of functions. The handle that stood there is given back,
still counted. -/
def setFunction (env : Env) (name : String) (d : Definition) : Option Definition × Env :=
  (env.functions.get? name, { env.retain [d] with functions := env.functions.insert name d })

/-- Empties the table of functions. -/
def clearFunctions (env : Env) : Env :=
  { env.release (env.functions.toList.map Prod.snd) with functions := Table.empty }

/-- Registers a definition under its own name, which is what evaluating it means. -/
def define (env : Env) (d : Definition) : Env :=
  let (previous, env) := env.setFunction d.name d
  match previous with
  | none => env.note (.event (.registered d.name d.params.size))
  | some old =>
    let event := if old.id = d.id then .reregistered d.name else .replaced d.name (env.handles.count old.id)
    (env.note (.event event)).release [old]

/-- Opens the span of a call. -/
def openCall (env : Env) (name : String) : Env := env.note (.enter (.call env.callDepth name))

/-- Closes the span of a call to a name that has no function. -/
def rejectCall (env : Env) : Env := (env.note (.event .undefinedCall)).note (.exit .call)

/-- Starts to run a function that was found: it is held for as long as it runs, and its depth is counted. -/
def beginCall (env : Env) (d : Definition) : Env :=
  let depth := env.callDepth + 1
  { (env.retain [d]).note (.event .enteringBody) with
    callDepth := depth
    counters := env.counters.map (·.countCall depth) }

/-- Adds the binding that a name has now, unless one was saved before. -/
def save (env : Env) (saved : Saved) (name : String) : Saved :=
  if saved.any (·.1 == name) then saved else saved ++ [(name, env.vars.get? name)]

/-- Goes back to saved bindings. -/
def restore (env : Env) (saved : Saved) : Env :=
  { env with vars := saved.foldl (fun table binding => table.put binding.1 binding.2) env.vars }

/-- Ends a call that found its function: parameters get their old bindings back, and the function is let go. -/
def endCall (env : Env) (d : Definition) (saved : Saved) (result : Float) : Env :=
  let env := (env.note (.event (.callReturned result))).restore saved
  ({ env with callDepth := env.callDepth - 1 }.release [d]).note (.exit .call)

theorem functions_define (env : Env) (d : Definition) :
    (env.define d).functions = env.functions.insert d.name d := by
  simp only [define, setFunction]
  cases env.functions.get? d.name <;> rfl

theorem get?_functions_define (env : Env) (d : Definition) : (env.define d).functions.get? d.name = some d := by
  rw [functions_define, Table.get?_insert_self]

theorem vars_define (env : Env) (d : Definition) : (env.define d).vars = env.vars := by
  simp only [define, setFunction]
  cases env.functions.get? d.name <;> rfl

/-- The handle that the definition replaces goes last, after the new one is counted. -/
theorem handles_define (env : Env) (d : Definition) :
    (env.define d).handles = (env.handles.retain [d]).release (env.functions.get? d.name).toList := by
  simp only [define, setFunction]
  cases env.functions.get? d.name with
  | none => simp [retain, note, Handles.release]
  | some old => rfl

end Env

end TreeCalc
