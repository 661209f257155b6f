import TreeCalc.Node.Basic
import TreeCalc.Number.Shortest
import TreeCalc.Text.Quoted

namespace TreeCalc

/-- The names as a chain of records, each holding the rest. -/
def Params.debugRest : List String → String
  | [] => "None"
  | name :: rest => "Some(ParamList \x7b name: " ++ Text.quoted name ++ ", rest: " ++ debugRest rest ++ " \x7d)"

/-- The debug text of a parameter list. -/
def Params.debug (params : Params) : String :=
  "ParamList \x7b name: " ++ Text.quoted params.first ++ ", rest: " ++ debugRest params.rest ++ " \x7d"

mutual

/-- Adds the debug text of a tree: the name of its kind and then its parts, every one of them written out. -/
def Node.debugOnto (out : String) : Node → String
  | .num x => out ++ "Constant(" ++ Number.exactText x ++ ")"
  | .var x => out ++ "VariableRef(" ++ Text.quoted x ++ ")"
  | .neg t => t.debugOnto (out ++ "Negate(") ++ ")"
  | .arith op l r =>
    let out := l.debugOnto (out ++ "BinaryArith \x7b op: " ++ op.debugName ++ ", left: ")
    r.debugOnto (out ++ ", right: ") ++ " \x7d"
  | .compare op l r =>
    let out := l.debugOnto (out ++ "Compare \x7b op: " ++ op.debugName ++ ", left: ")
    r.debugOnto (out ++ ", right: ") ++ " \x7d"
  | .unary f t => t.debugOnto (out ++ "UnaryBuiltin \x7b func: " ++ f.debugName ++ ", operand: ") ++ " \x7d"
  | .binary f l r =>
    let out := l.debugOnto (out ++ "BinaryBuiltin \x7b func: " ++ f.debugName ++ ", left: ")
    r.debugOnto (out ++ ", right: ") ++ " \x7d"
  | .list t ts =>
    Node.debugTailOnto (t.debugOnto (out ++ "ExprList(ExprList \x7b head: ") ++ ", tail: ") ts ++ " \x7d)"
  | .assign x t => t.debugOnto (out ++ "Assignment \x7b name: " ++ Text.quoted x ++ ", value: ") ++ " \x7d"
  | .cond t onTrue onFalse =>
    let out := t.debugOnto (out ++ "Condition \x7b cond: ")
    let out := Node.debugBranchOnto (out ++ ", then_branch: ") onTrue
    Node.debugBranchOnto (out ++ ", else_branch: ") onFalse ++ " \x7d"
  | .seq s t =>
    let out := s.debugOnto (out ++ "Sequence \x7b first: ")
    t.debugOnto (out ++ ", second: ") ++ " \x7d"
  | .params ps => out ++ "ParamList(" ++ ps.debug ++ ")"
  | .define _ f ps t =>
    let out := out ++ "FunctionDef(SharedFunction(FunctionDef \x7b name: " ++ Text.quoted f
    t.debugOnto (out ++ ", params: " ++ ps.debug ++ ", body: ") ++ " \x7d))"
  | .call f ts =>
    Node.debugTailOnto (out ++ "FunctionCall \x7b name: " ++ Text.quoted f ++ ", args: ") ts ++ " \x7d"

/-- A list that may be missing, as a chain of records, each holding the rest. -/
def Node.debugTailOnto (out : String) : List Node → String
  | [] => out ++ "None"
  | t :: ts =>
    Node.debugTailOnto (t.debugOnto (out ++ "Some(ExprList \x7b head: ") ++ ", tail: ") ts ++ " \x7d)"

def Node.debugBranchOnto (out : String) : Option Node → String
  | none => out ++ "None"
  | some t => t.debugOnto (out ++ "Some(") ++ ")"

end

/-- The debug text of a tree, on one line. -/
def Node.debug (t : Node) : String := t.debugOnto ""

/-- The debug text of a definition. -/
def Definition.debug (d : Definition) : String :=
  d.body.debugOnto ("SharedFunction(FunctionDef \x7b name: " ++ Text.quoted d.name ++ ", params: " ++
    d.params.debug ++ ", body: ") ++ " \x7d)"

end TreeCalc
