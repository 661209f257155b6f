namespace TreeCalc

/-- A stretch of a run: one unit of a program, or one call with the number of calls around it. -/
inductive Span where
  | unit (index : Nat)
  | call (depth : Nat) (name : String)
  deriving DecidableEq

inductive SpanKind where
  | unit
  | call
  deriving DecidableEq

def Span.kind : Span → SpanKind
  | unit _ => .unit
  | call .. => .call

/-- Something that happens within a run. -/
inductive Event where
  | unitEvaluated (value : Float)
  | undefinedCall
  | enteringBody
  | callReturned (result : Float)
  /-- A definition got a name that was free. -/
  | registered (name : String) (params : Nat)
  /-- A definition got the name that it had. -/
  | reregistered (name : String)
  /-- A definition got the name of another, to which this many handles were left. -/
  | replaced (name : String) (liveHandles : Nat)
  deriving DecidableEq

/-- How much detail a log must show to contain an entry. -/
inductive Level where
  | debug
  | trace
  deriving DecidableEq

inductive Entry where
  | enter (span : Span)
  | exit (kind : SpanKind)
  | event (event : Event)
  deriving DecidableEq

namespace SpanKind

def label : SpanKind → String
  | unit => "unit"
  | call => "call_function"

end SpanKind

namespace Span

def level (_ : Span) : Level := .debug

end Span

namespace Event

def message : Event → String
  | unitEvaluated _ => "unit evaluated"
  | undefinedCall => "call to undefined function"
  | enteringBody => "entering body"
  | callReturned _ => "call returned"
  | registered .. => "function registered"
  | reregistered _ => "function re-registered"
  | replaced .. => "function definition replaced"

def level : Event → Level
  | unitEvaluated _ | callReturned _ | registered .. | replaced .. => .debug
  | undefinedCall | enteringBody | reregistered _ => .trace

end Event

def Level.label : Level → String
  | debug => "DEBUG"
  | trace => "TRACE"

end TreeCalc
