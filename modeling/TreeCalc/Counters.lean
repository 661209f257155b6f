namespace TreeCalc

/-- What a run has done so far. Calls and displays are counted in words of sixty-four bits. -/
structure Counters where
  functionCalls : UInt64 := 0
  displayWrites : UInt64 := 0
  maxCallDepth : Nat := 0
  deriving DecidableEq

namespace Counters

/-- Counts one call that runs at the given depth. -/
def countCall (c : Counters) (depth : Nat) : Counters :=
  { c with functionCalls := c.functionCalls + 1, maxCallDepth := max c.maxCallDepth depth }

def countDisplay (c : Counters) : Counters := { c with displayWrites := c.displayWrites + 1 }

/-- The counters of two runs taken together. -/
def merge (c d : Counters) : Counters where
  functionCalls := c.functionCalls + d.functionCalls
  displayWrites := c.displayWrites + d.displayWrites
  maxCallDepth := max c.maxCallDepth d.maxCallDepth

/-- Three lines, the last one without an end. -/
def report (c : Counters) : String :=
  "function calls:  " ++ toString c.functionCalls.toNat ++ "\ndisplay writes:  " ++
    toString c.displayWrites.toNat ++ "\nmax call depth:  " ++ toString c.maxCallDepth

end Counters

end TreeCalc
