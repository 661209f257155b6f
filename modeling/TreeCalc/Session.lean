import TreeCalc.Env.Seed
import TreeCalc.Node.Equality
import TreeCalc.Node.Graft
import TreeCalc.Node.Stamp
import TreeCalc.Program

namespace TreeCalc

/-- An environment with one program to run in it, named slots in which the host keeps handles to definitions, and
named places at which it keeps trees. -/
structure Session where
  env : Env
  program : Program := {}
  slots : Table Definition := {}
  trees : Table Node := {}
  /-- The identity that the next definition gets. -/
  nextId : Nat := 0
  /-- Whether the host chose the output itself, so that it can read it too. -/
  hostOutput : Bool := false

/-- How a session is to be set up. An output that the host brings along goes before the chosen mode. -/
structure Setup where
  mode : OutputMode := .standard
  hostMode : Option OutputMode := none
  vars : List (String × Float) := []
  counting : Bool := false
  logging : Bool := false

/-- A tree that the host can refer to. -/
inductive Source where
  | tree (place : String)
  | unit (index : Nat)
  | body (slot : String)

/-- What a host can ask of a session. Trees are handed over without identities of their own. -/
inductive Request where
  | eval (t : Node) (times : Nat)
  | evalList (ts : List Node)
  | add (t : Node)
  | extend (ts : List Node)
  | collect (ts : List Node)
  | clear
  | size
  | run
  | runUnit (index : Nat)
  | trace
  | units
  | debug
  | get (name : String)
  | set (name : String) (x : Float)
  | lookup (name : String)
  | contains (name : String)
  | remove (name : String)
  | names
  | clearVariables
  | seed (text : String)
  | hasFunction (name : String)
  | functionNames
  | clearFunctions
  /-- Keep a handle to a registered function in a slot. -/
  | hold (slot name : String)
  /-- Keep a handle to a new definition in a slot. -/
  | make (slot name : String) (params : Params) (body : Node)
  | copy (slot source : String)
  | drop (slot : String)
  | register (name slot : String)
  | handles (slot : String)
  | same (left right : String)
  /-- Keep a new tree. -/
  | plant (place : String) (t : Node)
  /-- Keep a tree that is just the definition in a slot. -/
  | wrap (place slot : String)
  /-- Move a kept tree into another one, where a variable stood. -/
  | graft (place hole source : String)
  | uproot (place : String)
  /-- Keep a handle to a new definition, into which a kept tree moves as its body. -/
  | enclose (slot name : String) (params : Params) (place : String)
  /-- Keep a handle to one of the definitions that a tree makes. -/
  | pick (slot : String) (source : Source) (index : Nat)
  /-- Evaluate a tree where it is. -/
  | evalAt (source : Source) (times : Nat)
  /-- Move kept trees to the end of the program. -/
  | addTrees (places : List String)
  /-- Make a program of kept trees and put it in the place of the one that there is. -/
  | collectTrees (places : List String)
  | describe (slot : String)
  | debugSlot (slot : String)
  | counters
  | callDepth
  | output
  | clearOutput
  | print (line : String)
  | hostOutput
  /-- Whether a mode keeps text for the host, and whether it is the standard one. -/
  | captures (mode : OutputMode)
  /-- Turn on logging for the process, which no session sees. -/
  | listen

inductive Reply where
  | nothing
  | number (x : Float)
  | numbers (xs : List Float)
  | binding (x : Option Float)
  | count (n : Nat)
  | flag (b : Bool)
  | flags (b c : Bool)
  | text (s : String)
  | texts (ss : List String)
  | size (n : Nat) (empty : Bool)
  | seeded
  | seedFault (e : SeedError)
  | unitFault (e : UnitOutOfRange)
  /-- The own name of the definition that was replaced, and the handles left to it. -/
  | replaced (name : String) (handles : Nat)
  | sameness (identical equal : Bool)
  | description (name : String) (params : List String) (body : String)
  | counters (c : Counters)
  | emptySlot

/-- A single value is given as such. -/
def Reply.ofValues : List Float → Reply
  | [x] => .number x
  | xs => .numbers xs

namespace Session

def start (setup : Setup) : Session where
  env :=
    let env : Env := {
      output := ⟨setup.hostMode.getD setup.mode, ""⟩
      counters := if setup.counting then some {} else none
      journal := if setup.logging then some #[] else none }
    env.assignAll setup.vars
  hostOutput := setup.hostMode.isSome

/-- Takes in a tree that the host built: its definitions get identities, and the tree holds them. -/
def adopt (s : Session) (t : Node) : Node × Session :=
  let (t, next) := t.stamp s.nextId
  (t, { s with nextId := next, env := s.env.retain t.definitions })

/-- Takes in trees from left to right. -/
def adoptAll (s : Session) (ts : List Node) : Array Node × Session :=
  ts.foldl (fun (done, s) t => let (t, s) := s.adopt t; (done.push t, s)) (#[], s)

/-- Lets a tree go, and with it its handles. -/
def discard (s : Session) (t : Node) : Session := { s with env := s.env.release t.definitions }

/-- Lets all units of the program go. -/
def clearProgram (s : Session) : Session := { s.program.units.foldl discard s with program := {} }

/-- Evaluates a tree several times, one after the other. -/
def evalTimes (fuel : Nat) (t : Node) : Nat → Env → Option (List Float × Env)
  | 0, env => some ([], env)
  | times + 1, env => do
    let (x, env) ← t.evaluate fuel env
    let (xs, env) ← evalTimes fuel t times env
    some (x :: xs, env)

/-- Evaluates a tree that lives for the time of the request. -/
def evalOnce (s : Session) (fuel : Nat) (t : Node) (times : Nat) : Option (Session × List Float) := do
  let (t, s) := s.adopt t
  let (xs, env) ← evalTimes fuel t times s.env
  some ({ s with env }.discard t, xs)

/-- Puts a handle that is already counted in a slot and lets the slot's former one go. -/
def fill (s : Session) (slot : String) (d : Definition) : Session :=
  let former := (s.slots.get? slot).toList
  { s with slots := s.slots.insert slot d, env := s.env.release former }

/-- Puts a new handle to a definition in a slot. The reply counts the slot's former handle too. -/
def keep (s : Session) (slot : String) (d : Definition) : Session × Reply :=
  let env := s.env.retain [d]
  ({ s with env }.fill slot d, .count (env.handles.count d.id))

/-- Puts a tree whose handles are already counted at a place and lets the former one go. -/
def store (s : Session) (place : String) (t : Node) : Session :=
  let former := (s.trees.get? place).elim [] Node.definitions
  { s with trees := s.trees.insert place t, env := s.env.release former }

/-- The trees at the given places, from left to right, and the places with these trees gone. -/
def pull : List String → Table Node → List Node × Table Node
  | [], trees => ([], trees)
  | place :: places, trees =>
    let (taken, rest) := pull places (trees.erase place)
    ((trees.get? place).toList ++ taken, rest)

/-- The kept trees once one of them has moved into another. -/
def grafted? (s : Session) (place hole source : String) : Option (Table Node) := do
  let inner ← s.trees.get? source
  let outer ← (s.trees.erase source).get? place
  let grown ← inner.graftInto hole outer
  some ((s.trees.erase source).insert place grown)

def find? (s : Session) : Source → Option Node
  | .tree place => s.trees.get? place
  | .unit index => s.program.units[index]?
  | .body slot => (s.slots.get? slot).map Definition.body

/-- Answers by what a slot holds. -/
def withSlot (s : Session) (slot : String) (answer : Definition → Session × Reply) : Session × Reply :=
  match s.slots.get? slot with
  | none => (s, .emptySlot)
  | some d => answer d

/-- Serves one request, giving every evaluation at most `fuel` steps. -/
def serve (s : Session) (fuel : Nat) : Request → Option (Session × Reply)
  | .eval t times => do
    let (s, xs) ← s.evalOnce fuel t times
    some (s, .ofValues xs)
  | .evalList ts =>
    match Node.ofList? ts with
    | none => some (s, .nothing)
    | some t => do
      let (s, xs) ← s.evalOnce fuel t 1
      some (s, .ofValues xs)
  | .add t =>
    let (t, s) := s.adopt t
    let program : Program := ⟨s.program.units.push t⟩
    some ({ s with program }, .count program.size)
  | .extend ts =>
    let (ts, s) := s.adoptAll ts
    let program : Program := ⟨s.program.units ++ ts⟩
    some ({ s with program }, .count program.size)
  | .collect ts =>
    let (ts, s) := s.adoptAll ts
    some ({ s.clearProgram with program := ⟨ts⟩ }, .count ts.size)
  | .clear => some (s.clearProgram, .count 0)
  | .size => some (s, .size s.program.size s.program.units.isEmpty)
  | .run => do
    let (x, env) ← s.program.evaluateAll fuel s.env
    some ({ s with env }, .number x)
  | .runUnit index =>
    match s.program.evaluateUnit fuel index s.env with
    | .error e => some (s, .unitFault e)
    | .ok outcome => do
      let (x, env) ← outcome
      some ({ s with env }, .number x)
  | .trace => some (s, .text s.program.trace)
  | .units => some (s, .texts (s.program.units.toList.map (·.trace 0)))
  | .debug => some (s, .text s.program.debug)
  | .get name => some (s, .number (s.env.read name))
  | .set name x => some ({ s with env := s.env.assign name x }, .nothing)
  | .lookup name => some (s, .binding (s.env.vars.get? name))
  | .contains name => some (s, .flag (s.env.vars.contains name))
  | .remove name => some ({ s with env := s.env.remove name }, .binding (s.env.vars.get? name))
  | .names => some (s, .texts s.env.vars.names)
  | .clearVariables => some ({ s with env := s.env.clearVariables }, .nothing)
  | .seed text =>
    match s.env.seed text with
    | .error e => some (s, .seedFault e)
    | .ok env => some ({ s with env }, .seeded)
  | .hasFunction name => some (s, .flag (s.env.functions.contains name))
  | .functionNames => some (s, .texts s.env.functions.names)
  | .clearFunctions => some ({ s with env := s.env.clearFunctions }, .nothing)
  | .hold slot name =>
    match s.env.functions.get? name with
    | none => some (s, .nothing)
    | some d => some (s.keep slot d)
  | .make slot name params body =>
    let (body, id) := body.stamp s.nextId
    some ({ s with nextId := id + 1 }.keep slot ⟨id, name, params, body⟩)
  | .copy slot source => some (s.withSlot source (s.keep slot))
  | .drop slot =>
    let former := s.slots.get? slot
    some ({ s with slots := s.slots.erase slot, env := s.env.release former.toList }, .flag former.isSome)
  | .register name slot =>
    some (s.withSlot slot fun d =>
      let (previous, env) := s.env.setFunction name d
      match previous with
      | none => ({ s with env }, .nothing)
      | some old => ({ s with env := env.release [old] }, .replaced old.name (env.handles.count old.id)))
  | .handles slot => some (s.withSlot slot fun d => (s, .count (s.env.handles.count d.id)))
  | .same left right =>
    some (s.withSlot left fun d => s.withSlot right fun e => (s, .sameness (d.id == e.id) (d == e)))
  | .plant place t =>
    let (t, s) := s.adopt t
    some (s.store place t, .nothing)
  | .wrap place slot =>
    some (s.withSlot slot fun d =>
      let env := s.env.retain [d]
      ({ s with env }.store place d.toNode, .count (env.handles.count d.id)))
  | .graft place hole source =>
    match s.grafted? place hole source with
    | none => some (s, .flag false)
    | some trees => some ({ s with trees }, .flag true)
  | .uproot place =>
    let former := s.trees.get? place
    some ({ s with trees := s.trees.erase place, env := s.env.release (former.elim [] Node.definitions) },
      .flag former.isSome)
  | .enclose slot name params place =>
    match s.trees.get? place with
    | none => some (s, .nothing)
    | some body =>
      let d : Definition := ⟨s.nextId, name, params, body⟩
      -- The new definition counts what its body holds, so that the tree need not be counted any more.
      let env := (s.env.retain [d]).release body.definitions
      let s := { s with env, trees := s.trees.erase place, nextId := s.nextId + 1 }
      some (s.fill slot d, .count (env.handles.count d.id))
  | .pick slot source index =>
    match (s.find? source).bind (·.definitions[index]?) with
    | none => some (s, .nothing)
    | some d => some (s.keep slot d)
  | .evalAt source times =>
    match s.find? source with
    | none => some (s, .nothing)
    | some t => do
      let (xs, env) ← evalTimes fuel t times s.env
      some ({ s with env }, .ofValues xs)
  | .addTrees places =>
    let (ts, trees) := pull places s.trees
    let program : Program := ⟨s.program.units ++ ts⟩
    some ({ s with program, trees }, .count program.size)
  | .collectTrees places =>
    let (ts, trees) := pull places s.trees
    some ({ { s with trees }.clearProgram with program := ⟨ts.toArray⟩ }, .count ts.length)
  | .describe slot =>
    some (s.withSlot slot fun d => (s, .description d.name d.params.names (d.body.trace 0)))
  | .debugSlot slot => some (s.withSlot slot fun d => (s, .text d.debug))
  | .counters => some (s, s.env.counters.elim .nothing .counters)
  | .callDepth => some (s, .count s.env.callDepth)
  | .output => some (s, .text s.env.output.captured)
  | .clearOutput => some ({ s with env.output := s.env.output.clear }, .nothing)
  | .print line => some ({ s with env.output := s.env.output.println line }, .nothing)
  | .hostOutput => some (s, if s.hostOutput then .text s.env.output.captured else .nothing)
  | .captures mode => some (s, .flags mode.captures (mode = .standard))
  | .listen => some (s, .nothing)

end Session

/-- A reply together with what the request left behind: the variables, the names of the functions, and the text
and the journal entries that it added. -/
structure Report where
  reply : Reply
  vars : List (String × Float)
  functions : List String
  captured : String
  printed : String
  log : List Entry

namespace Report

/-- What stands in `after` beyond `before`, or all of it when it does not begin so. -/
def addedText (before after : String) : String :=
  if before.toList.isPrefixOf after.toList then String.ofList (after.toList.drop before.toList.length) else after

def of (before after : Session) (reply : Reply) : Report where
  reply := reply
  vars := after.env.vars.toList
  functions := after.env.functions.names
  captured := addedText before.env.output.captured after.env.output.captured
  printed := addedText before.env.output.printed after.env.output.printed
  log := ((after.env.journal.getD #[]).extract (before.env.journal.getD #[]).size).toList

end Report

/-- Serves one request and reports on it. -/
def Session.step (s : Session) (fuel : Nat) (request : Request) : Option (Session × Report) := do
  let (next, reply) ← s.serve fuel request
  some (next, Report.of s next reply)

end TreeCalc
