import TreeCalc.Env.Basic

namespace TreeCalc

/-- The names that a running call owns, each with its value if it has one. -/
abbrev Scope := Table (Option Float)

/-- An environment in which every running call has variables of its own: the scopes of the calls, the innermost
one first, over an environment whose table holds what no call owns. -/
structure ScopedEnv where
  scopes : List Scope
  base : Env

/-- The result of a run with scopes that came to its end. -/
abbrev ScopedOutcome := Option (Float × ScopedEnv)

namespace ScopedEnv

/-- The binding of a name in the innermost scope that owns it, or else in the outer table. -/
def lookupIn (outer : Table Float) (name : String) : List Scope → Option Float
  | [] => outer.get? name
  | scope :: scopes => (scope.get? name).getD (lookupIn outer name scopes)

def lookup (env : ScopedEnv) (name : String) : Option Float := lookupIn env.base.vars name env.scopes

def read (env : ScopedEnv) (name : String) : Float := (env.lookup name).getD 0.0

/-- Assigns in the innermost scope that owns the name, or else in the outer table. -/
def assignIn (name : String) (x : Float) (outer : Table Float) : List Scope → List Scope × Table Float
  | [] => ([], outer.insert name x)
  | scope :: scopes =>
    if scope.contains name then (scope.insert name (some x) :: scopes, outer)
    else
      let below := assignIn name x outer scopes
      (scope :: below.1, below.2)

def assign (env : ScopedEnv) (name : String) (x : Float) : ScopedEnv :=
  let changed := assignIn name x env.base.vars env.scopes
  ⟨changed.1, { env.base with vars := changed.2 }⟩

/-- Does something that leaves variables alone. -/
def outside (env : ScopedEnv) (f : Env → Env) : ScopedEnv := { env with base := f env.base }

/-- Makes the innermost scope own a name, with a copy of the binding that the name has now. A name that it owns
already stays as it is. -/
def own (env : ScopedEnv) (name : String) : ScopedEnv :=
  match env.scopes with
  | [] => env
  | scope :: scopes =>
    if scope.contains name then env else { env with scopes := scope.insert name (env.lookup name) :: scopes }

/-- Writes to a name of the innermost scope. -/
def bind (env : ScopedEnv) (name : String) (x : Float) : ScopedEnv :=
  match env.scopes with
  | [] => env
  | scope :: scopes => { env with scopes := scope.insert name (some x) :: scopes }

/-- Starts a call with a scope that owns nothing yet. -/
def beginCall (env : ScopedEnv) (d : Definition) : ScopedEnv := ⟨Table.empty :: env.scopes, env.base.beginCall d⟩

/-- Ends a call: its scope goes, and there is nothing to put back. -/
def endCall (env : ScopedEnv) (d : Definition) (result : Float) : ScopedEnv :=
  ⟨env.scopes.tail, env.base.endCall d [] result⟩

/-- Binds parameters from left to right in the innermost scope. -/
def bindParams (ev : Node → ScopedEnv → ScopedOutcome) : List String → List Node → ScopedEnv → Option ScopedEnv
  | [], _, env => some env
  | p :: ps, [], env => bindParams ev ps [] ((env.own p).bind p 0.0)
  | p :: ps, a :: as, env => do
    let (x, env) ← ev a (env.own p)
    bindParams ev ps as (env.bind p x)

def callWith (ev : Node → ScopedEnv → ScopedOutcome) (name : String) (args : List Node) (env : ScopedEnv) :
    ScopedOutcome :=
  let env := env.outside (·.openCall name)
  match env.base.functions.get? name with
  | none => some (0.0, env.outside Env.rejectCall)
  | some d => do
    let env ← bindParams ev d.params.names args (env.beginCall d)
    let (x, env) ← ev d.body env
    some (x, env.endCall d x)

/-- One level of evaluation with scopes. -/
def evalWith (ev : Node → ScopedEnv → ScopedOutcome) (t : Node) (env : ScopedEnv) : ScopedOutcome :=
  match t with
  | .num x => some (x, env)
  | .var name => some (env.read name, env)
  | .neg t => do
    let (x, env) ← ev t env
    some (-x, env)
  | .arith op l r => do
    let (x, env) ← ev l env
    let (y, env) ← ev r env
    some (op.apply x y, env)
  | .compare op l r => do
    let (x, env) ← ev l env
    let (y, env) ← ev r env
    some (op.apply x y, env)
  | .unary f t => do
    let (x, env) ← ev t env
    some (f.apply x, if f = .display then env.outside (·.display x) else env)
  | .binary f l r => do
    let (x, env) ← ev l env
    let (y, env) ← ev r env
    some (f.apply x y, env)
  | .list head _ => ev head env
  | .assign name t => do
    let (x, env) ← ev t env
    some (x, env.assign name x)
  | .cond test onTrue onFalse => do
    let (x, env) ← ev test env
    match if x != 0.0 then onTrue else onFalse with
    | none => some (0.0, env)
    | some branch => ev branch env
  | .seq first second => do
    let (_, env) ← ev first env
    ev second env
  | .params _ => some (0.0, env)
  | .define id name ps body => some (0.0, env.outside (·.define ⟨id, name, ps, body⟩))
  | .call name args => callWith ev name args env

/-- Evaluates a tree with scopes, at most `fuel` levels of evaluation inside one another. -/
def eval : Nat → Node → ScopedEnv → ScopedOutcome
  | 0, _, _ => none
  | fuel + 1, t, env => evalWith (eval fuel) t env

end ScopedEnv

end TreeCalc
