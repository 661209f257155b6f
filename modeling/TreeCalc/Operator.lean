import TreeCalc.Number.Remainder

namespace TreeCalc

inductive ArithOp where
  | add
  | sub
  | mul
  | div
  | mod
  | pow
  deriving DecidableEq

namespace ArithOp

def symbol : ArithOp → String
  | add => "+"
  | sub => "-"
  | mul => "*"
  | div => "/"
  | mod => "%"
  | pow => "^"

/-- The operation's name in a trace. -/
def word : ArithOp → String
  | add => "add"
  | sub => "subtract"
  | mul => "multiply"
  | div => "divide"
  | mod => "modulo"
  | pow => "power"

/-- The operation's name in a debug text. -/
def debugName : ArithOp → String
  | add => "Add"
  | sub => "Sub"
  | mul => "Mul"
  | div => "Div"
  | mod => "Mod"
  | pow => "Pow"

def ofSymbol? : String → Option ArithOp
  | "+" => some add
  | "-" => some sub
  | "*" => some mul
  | "/" => some div
  | "%" => some mod
  | "^" => some pow
  | _ => none

def apply : ArithOp → Float → Float → Float
  | add, x, y => x + y
  | sub, x, y => x - y
  | mul, x, y => x * y
  | div, x, y => x / y
  | mod, x, y => Number.remainder x y
  | pow, x, y => Float.pow x y

end ArithOp

inductive CompareOp where
  | gt
  | lt
  | notEq
  | eq
  | gtEq
  | ltEq
  deriving DecidableEq

namespace CompareOp

def symbol : CompareOp → String
  | gt => ">"
  | lt => "<"
  | notEq => "!="
  | eq => "=="
  | gtEq => ">="
  | ltEq => "<="

def debugName : CompareOp → String
  | gt => "Gt"
  | lt => "Lt"
  | notEq => "NotEq"
  | eq => "Eq"
  | gtEq => "GtEq"
  | ltEq => "LtEq"

def ofSymbol? : String → Option CompareOp
  | ">" => some gt
  | "<" => some lt
  | "!=" => some notEq
  | "==" => some eq
  | ">=" => some gtEq
  | "<=" => some ltEq
  | _ => none

def holds : CompareOp → Float → Float → Bool
  | gt, x, y => y < x
  | lt, x, y => x < y
  | notEq, x, y => x != y
  | eq, x, y => x == y
  | gtEq, x, y => y ≤ x
  | ltEq, x, y => x ≤ y

/-- A comparison yields one or zero. -/
def apply (op : CompareOp) (x y : Float) : Float := if op.holds x y then 1.0 else 0.0

end CompareOp

/-- The builtin functions of one argument. -/
inductive UnaryBuiltin where
  | sqrt
  | exp
  | log
  | display
  deriving DecidableEq

namespace UnaryBuiltin

def name : UnaryBuiltin → String
  | sqrt => "sqrt"
  | exp => "exp"
  | log => "log"
  | display => "display"

def debugName : UnaryBuiltin → String
  | sqrt => "Sqrt"
  | exp => "Exp"
  | log => "Log"
  | display => "Display"

def ofName? : String → Option UnaryBuiltin
  | "sqrt" => some sqrt
  | "exp" => some exp
  | "log" => some log
  | "display" => some display
  | _ => none

/-- The value of the function. A displayed number is passed on as it is. -/
def apply : UnaryBuiltin → Float → Float
  | sqrt, x => Float.sqrt x
  | exp, x => Float.exp x
  | log, x => Float.log x
  | display, x => x

end UnaryBuiltin

/-- The builtin functions of two arguments. -/
inductive BinaryBuiltin where
  | pow
  deriving DecidableEq

namespace BinaryBuiltin

def name : BinaryBuiltin → String
  | pow => "pow"

def debugName : BinaryBuiltin → String
  | pow => "Pow"

def ofName? : String → Option BinaryBuiltin
  | "pow" => some pow
  | _ => none

def apply : BinaryBuiltin → Float → Float → Float
  | pow, x, y => Float.pow x y

end BinaryBuiltin

end TreeCalc
