import TreeCalc.Env.Basic

namespace TreeCalc

/-- The result of a run that came to its end: a value, and the environment it leaves. -/
abbrev Outcome := Option (Float × Env)

/-- Binds parameters from left to right, each to the value of the next argument as `ev` evaluates it, or to zero
when there is none. Before the argument is evaluated the parameter's binding is saved. Arguments beyond the last
parameter are not looked at. -/
def bindParams (ev : Node → Env → Outcome) :
    List String → List Node → Saved → Env → Option (Saved × Env)
  | [], _, saved, env => some (saved, env)
  | p :: ps, [], saved, env => bindParams ev ps [] (env.save saved p) (env.assign p 0.0)
  | p :: ps, a :: as, saved, env => do
    let saved := env.save saved p
    let (x, env) ← ev a env
    bindParams ev ps as saved (env.assign p x)

/-- Calls a function by name. An unknown name is worth zero. -/
def callWith (ev : Node → Env → Outcome) (name : String) (args : List Node) (env : Env) : Outcome :=
  let env := env.openCall name
  match env.functions.get? name with
  | none => some (0.0, env.rejectCall)
  | some d => do
    let (saved, env) ← bindParams ev d.params.names args [] (env.beginCall d)
    let (x, env) ← ev d.body env
    some (x, env.endCall d saved x)

/-- One level of evaluation: what a node does, given how its children are evaluated. -/
def evalWith (ev : Node → Env → Outcome) (t : Node) (env : Env) : Outcome :=
  match t with
  | .num x => some (x, env)
  | .var name => some (env.read name, env)
  | .neg t => do
    let (x, env) ← ev t env
    some (-x, env)
  | .arith op l r => do
    let (x, env) ← ev l env
    let (y, env) ← ev r env
    some (op.apply x y, env)
  | .compare op l r => do
    let (x, env) ← ev l env
    let (y, env) ← ev r env
    some (op.apply x y, env)
  | .unary f t => do
    let (x, env) ← ev t env
    some (f.apply x, if f = .display then env.display x else env)
  | .binary f l r => do
    let (x, env) ← ev l env
    let (y, env) ← ev r env
    some (f.apply x y, env)
  | .list head _ => ev head env
  | .assign name t => do
    let (x, env) ← ev t env
    some (x, env.assign name x)
  | .cond test onTrue onFalse => do
    let (x, env) ← ev test env
    match if x != 0.0 then onTrue else onFalse with
    | none => some (0.0, env)
    | some branch => ev branch env
  | .seq first second => do
    let (_, env) ← ev first env
    ev second env
  | .params _ => some (0.0, env)
  | .define id name ps body => some (0.0, env.define ⟨id, name, ps, body⟩)
  | .call name args => callWith ev name args env

/-- Evaluates a tree with at most `fuel` levels of evaluation inside one another, and gives up beyond that. -/
def eval : Nat → Node → Env → Outcome
  | 0, _, _ => none
  | fuel + 1, t, env => evalWith (eval fuel) t env

end TreeCalc
