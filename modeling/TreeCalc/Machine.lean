import TreeCalc.Evaluation

namespace TreeCalc

/-- What remains to be done with a value once it is there. -/
inductive Frame where
  | neg
  | arithLeft (op : ArithOp) (right : Node)
  | arithRight (op : ArithOp) (left : Float)
  | compareLeft (op : CompareOp) (right : Node)
  | compareRight (op : CompareOp) (left : Float)
  | unary (func : UnaryBuiltin)
  | binaryLeft (func : BinaryBuiltin) (right : Node)
  | binaryRight (func : BinaryBuiltin) (left : Float)
  | assign (name : String)
  | cond (onTrue onFalse : Option Node)
  | seq (second : Node)
  /-- Bind the value to the parameter, then go on with the other parameters. -/
  | bind (d : Definition) (saved : Saved) (param : String) (params : List String) (args : List Node)
  /-- The value is what the body yields. -/
  | finish (d : Definition) (saved : Saved)

/-- What is to be done next. -/
inductive Task where
  | eval (t : Node)
  | bind (d : Definition) (saved : Saved) (params : List String) (args : List Node)
  | give (x : Float)

/-- Evaluates with a stack of its own for what is left to do, so that no tree and no chain of calls is too deep.
Gives up after `fuel` steps. -/
def Machine.run : Nat → Task → List Frame → Env → Outcome
  | 0, _, _, _ => none
  | fuel + 1, .eval t, stack, env =>
    match t with
    | .num x => run fuel (.give x) stack env
    | .var name => run fuel (.give (env.read name)) stack env
    | .neg t => run fuel (.eval t) (.neg :: stack) env
    | .arith op l r => run fuel (.eval l) (.arithLeft op r :: stack) env
    | .compare op l r => run fuel (.eval l) (.compareLeft op r :: stack) env
    | .unary f t => run fuel (.eval t) (.unary f :: stack) env
    | .binary f l r => run fuel (.eval l) (.binaryLeft f r :: stack) env
    | .list head _ => run fuel (.eval head) stack env
    | .assign name t => run fuel (.eval t) (.assign name :: stack) env
    | .cond test onTrue onFalse => run fuel (.eval test) (.cond onTrue onFalse :: stack) env
    | .seq first second => run fuel (.eval first) (.seq second :: stack) env
    | .params _ => run fuel (.give 0.0) stack env
    | .define id name ps body => run fuel (.give 0.0) stack (env.define ⟨id, name, ps, body⟩)
    | .call name args =>
      let env := env.openCall name
      match env.functions.get? name with
      | none => run fuel (.give 0.0) stack env.rejectCall
      | some d => run fuel (.bind d [] d.params.names args) stack (env.beginCall d)
  | fuel + 1, .bind d saved params args, stack, env =>
    match params with
    | [] => run fuel (.eval d.body) (.finish d saved :: stack) env
    | p :: ps =>
      let saved := env.save saved p
      match args with
      | [] => run fuel (.bind d saved ps []) stack (env.assign p 0.0)
      | a :: as => run fuel (.eval a) (.bind d saved p ps as :: stack) env
  | _ + 1, .give x, [], env => some (x, env)
  | fuel + 1, .give x, frame :: stack, env =>
    match frame with
    | .neg => run fuel (.give (-x)) stack env
    | .arithLeft op r => run fuel (.eval r) (.arithRight op x :: stack) env
    | .arithRight op y => run fuel (.give (op.apply y x)) stack env
    | .compareLeft op r => run fuel (.eval r) (.compareRight op x :: stack) env
    | .compareRight op y => run fuel (.give (op.apply y x)) stack env
    | .unary f => run fuel (.give (f.apply x)) stack (if f = .display then env.display x else env)
    | .binaryLeft f r => run fuel (.eval r) (.binaryRight f x :: stack) env
    | .binaryRight f y => run fuel (.give (f.apply y x)) stack env
    | .assign name => run fuel (.give x) stack (env.assign name x)
    | .cond onTrue onFalse =>
      match if x != 0.0 then onTrue else onFalse with
      | none => run fuel (.give 0.0) stack env
      | some branch => run fuel (.eval branch) stack env
    | .seq second => run fuel (.eval second) stack env
    | .bind d saved p ps as => run fuel (.bind d saved ps as) stack (env.assign p x)
    | .finish d saved => run fuel (.give x) stack (env.endCall d saved x)

/-- Evaluates a tree in at most `fuel` steps. -/
def Node.evaluate (t : Node) (fuel : Nat) (env : Env) : Outcome := Machine.run fuel (.eval t) [] env

end TreeCalc
