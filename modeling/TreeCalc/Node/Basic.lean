import TreeCalc.Operator

namespace TreeCalc

/-- Parameter names in order. A function has at least one. -/
structure Params where
  first : String
  rest : List String
  deriving DecidableEq

namespace Params

def names (params : Params) : List String := params.first :: params.rest

def size (params : Params) : Nat := params.names.length

/-- No names make no parameters. -/
def ofNames? : List String → Option Params
  | [] => none
  | first :: rest => some ⟨first, rest⟩

end Params

/-- A syntax tree. A definition carries the identity under which the session counts its handles; a tree that
belongs to no session has whatever identities it was built with. -/
inductive Node where
  | num (value : Float)
  | var (name : String)
  | neg (operand : Node)
  | arith (op : ArithOp) (left right : Node)
  | compare (op : CompareOp) (left right : Node)
  | unary (func : UnaryBuiltin) (operand : Node)
  | binary (func : BinaryBuiltin) (left right : Node)
  /-- One expression or more. -/
  | list (head : Node) (tail : List Node)
  | assign (name : String) (value : Node)
  /-- A test and the branches for a true and a false outcome, each of which may be missing. -/
  | cond (test : Node) (onTrue onFalse : Option Node)
  | seq (first second : Node)
  | params (names : Params)
  | define (id : Nat) (name : String) (params : Params) (body : Node)
  /-- A call without arguments has no argument list at all. -/
  | call (name : String) (args : List Node)
  deriving Inhabited

/-- A function: its own name, its parameters and its body, with the identity of the node that defines it. -/
structure Definition where
  id : Nat
  name : String
  params : Params
  body : Node

namespace Node

/-- A list of expressions as one node; an empty list is no node. -/
def ofList? : List Node → Option Node
  | [] => none
  | head :: tail => some (list head tail)

/-- Puts statements, given last one first, in front of a tree. -/
def after (second : Node) (earlier : List Node) : Node := earlier.foldl (fun rest first => seq first rest) second

/-- Statements as one tree, nested to the right. No statements make no tree, and one is itself. -/
def block (statements : List Node) : Option Node :=
  match statements.reverse with
  | [] => none
  | last :: earlier => some (last.after earlier)

/-- The definition that a node makes, if it makes one. -/
def definition? : Node → Option Definition
  | .define id name ps body => some ⟨id, name, ps, body⟩
  | _ => none

end Node

/-- The node that makes a definition. -/
def Definition.toNode (d : Definition) : Node := .define d.id d.name d.params d.body

end TreeCalc
