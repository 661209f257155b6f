import TreeCalc.Machine
import TreeCalc.Node.Debug
import TreeCalc.Node.Trace

namespace TreeCalc

/-- Trees to be evaluated one after the other. -/
structure Program where
  units : Array Node := #[]

/-- A program was asked for a unit that it does not have. -/
structure UnitOutOfRange where
  index : Nat
  size : Nat
  deriving DecidableEq

def UnitOutOfRange.message (e : UnitOutOfRange) : String :=
  s!"program unit {e.index} out of range (program has {e.size} units)"

namespace Program

def size (program : Program) : Nat := program.units.size

/-- Evaluates one unit inside its span. -/
def evaluateSpan (fuel index : Nat) (t : Node) (env : Env) : Outcome := do
  let (x, env) ← t.evaluate fuel (env.note (.enter (.unit index)))
  some (x, (env.note (.event (.unitEvaluated x))).note (.exit .unit))

/-- Evaluates units one after the other, the first of them having the given index. -/
def evaluateFrom (fuel index : Nat) (x : Float) : List Node → Env → Outcome
  | [], env => some (x, env)
  | t :: ts, env => do
    let (y, env) ← evaluateSpan fuel index t env
    evaluateFrom fuel (index + 1) y ts env

/-- The value of the last unit after evaluating all; an empty program is worth zero. -/
def evaluateAll (program : Program) (fuel : Nat) (env : Env) : Outcome :=
  evaluateFrom fuel 0 0.0 program.units.toList env

/-- Evaluates one unit. -/
def evaluateUnit (program : Program) (fuel index : Nat) (env : Env) : Except UnitOutOfRange Outcome :=
  match program.units[index]? with
  | none => .error ⟨index, program.size⟩
  | some t => .ok (evaluateSpan fuel index t env)

/-- The traces of the units, one after the other. -/
def trace (program : Program) : String := program.units.foldl (fun out t => out ++ t.trace 0) ""

def debug (program : Program) : String :=
  "Program \x7b units: [" ++ ", ".intercalate (program.units.toList.map Node.debug) ++ "] \x7d"

end Program

end TreeCalc
