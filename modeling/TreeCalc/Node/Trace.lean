import TreeCalc.Node.Basic
import TreeCalc.Number.General

namespace TreeCalc

/-- One line of a trace: its level, and its text without the indentation. -/
structure Line where
  depth : Nat
  text : String
  deriving DecidableEq

/-- Two spaces for every level. -/
def Line.render (line : Line) : String := String.ofList (List.replicate (2 * line.depth) ' ') ++ line.text ++ "\n"

def Line.renderAll (lines : Array Line) : String := lines.foldl (fun out line => out ++ line.render) ""

/-- The line of a parameter list. -/
def Params.line (params : Params) (depth : Nat) : Line := ⟨depth, "paramlist: " ++ ", ".intercalate params.names⟩

mutual

/-- Adds the lines of a tree: a node's own line, and its children one level below it. The statements of a chain
stand side by side: `chained` says that the tree is the rest of one, so that a sequence continues it instead of
opening a level of its own. -/
def Node.linesOnto (out : Array Line) (depth : Nat) (chained : Bool) : Node → Array Line
  | .num x => out.push ⟨depth, Number.general x⟩
  | .var x => out.push ⟨depth, "variable: " ++ x⟩
  | .neg t => t.linesOnto (out.push ⟨depth, "- negate"⟩) (depth + 1) false
  | .arith op l r =>
    let out := l.linesOnto (out.push ⟨depth, op.symbol ++ " " ++ op.word⟩) (depth + 1) false
    r.linesOnto out (depth + 1) false
  | .compare op l r =>
    let out := l.linesOnto (out.push ⟨depth, op.symbol ++ " compare"⟩) (depth + 1) false
    r.linesOnto out (depth + 1) false
  | .unary f t => t.linesOnto (out.push ⟨depth, f.name ++ " function"⟩) (depth + 1) false
  | .binary f l r =>
    let out := l.linesOnto (out.push ⟨depth, f.name ++ " function"⟩) (depth + 1) false
    r.linesOnto out (depth + 1) false
  | .list t ts =>
    let out := t.linesOnto (out.push ⟨depth, "exprlist"⟩) (depth + 1) false
    Node.linesOntoAll out (depth + 1) ts
  | .assign x t => t.linesOnto (out.push ⟨depth, "assignment: " ++ x⟩) (depth + 1) false
  | .cond t onTrue onFalse =>
    let out := t.linesOnto (out.push ⟨depth, "condition"⟩) (depth + 1) false
    let out :=
      if onTrue.isNone && onFalse.isSome then out.push ⟨depth + 1, "(empty)"⟩
      else Node.linesOntoBranch out (depth + 1) onTrue
    Node.linesOntoBranch out (depth + 1) onFalse
  | .seq s t =>
    if chained then t.linesOnto (s.linesOnto out depth false) depth true
    else t.linesOnto (s.linesOnto (out.push ⟨depth, "statement"⟩) (depth + 1) false) (depth + 1) true
  | .params ps => out.push (ps.line depth)
  | .define _ f ps t =>
    t.linesOnto ((out.push ⟨depth, "function: " ++ f⟩).push (ps.line (depth + 1))) (depth + 1) false
  | .call f ts =>
    let out := out.push ⟨depth, "call: " ++ f⟩
    if ts.isEmpty then out else Node.linesOntoAll (out.push ⟨depth + 1, "exprlist"⟩) (depth + 2) ts

def Node.linesOntoAll (out : Array Line) (depth : Nat) : List Node → Array Line
  | [] => out
  | t :: ts => Node.linesOntoAll (t.linesOnto out depth false) depth ts

def Node.linesOntoBranch (out : Array Line) (depth : Nat) : Option Node → Array Line
  | none => out
  | some t => t.linesOnto out depth false

end

/-- The lines of a tree whose root stands at the given level. -/
def Node.lines (t : Node) (depth : Nat) : Array Line := t.linesOnto #[] depth false

/-- The trace of a tree, one node a line. -/
def Node.trace (t : Node) (depth : Nat) : String := Line.renderAll (t.lines depth)

/-- The widest margin that can be asked for. -/
def Line.widest : UInt64 := 65535

/-- The width of the margin of a line. It is counted in 64 bits, and so are the levels. -/
def Line.pad (line : Line) : UInt64 := UInt64.ofNat line.depth * 2

/-- Writes a line, unless its margin is too wide. -/
def Line.write (widest : UInt64) (line : Line) : Option String :=
  if line.pad ≤ widest then some (String.ofList (List.replicate line.pad.toNat ' ') ++ line.text ++ "\n") else none

/-- Writes the trace of a tree whose root stands at the given level, unless a margin is too wide. -/
def Node.write (widest : UInt64) (t : Node) (depth : UInt64) : Option String :=
  (t.lines depth.toNat).foldlM (fun out line => (line.write widest).map (out ++ ·)) ""

end TreeCalc
