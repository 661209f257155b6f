import TreeCalc.Number.General

namespace TreeCalc

/-- Where displayed lines go: to standard output, into a text kept for the host, or nowhere. -/
inductive OutputMode where
  | stdout
  | capture
  | silent
  deriving DecidableEq

namespace OutputMode

def captures (mode : OutputMode) : Bool := mode = capture

/-- The mode of a session that asks for none. -/
def standard : OutputMode := stdout

end OutputMode

/-- What stands before a displayed number. -/
def displayMark : String := "= "

/-- The line that displays a number. -/
def displayLine (x : Float) : String := displayMark ++ Number.general x

/-- An output with the text it has received: all that went to standard output, or all that was captured since
it was last cleared. -/
structure Output where
  mode : OutputMode
  text : String := ""
  deriving DecidableEq

namespace Output

/-- Writes one line. -/
def println (output : Output) (line : String) : Output :=
  match output.mode with
  | .silent => output
  | .stdout | .capture => { output with text := output.text ++ line ++ "\n" }

def display (output : Output) (x : Float) : Output := output.println (displayLine x)

/-- Forgets what was captured. What went to standard output cannot be taken back. -/
def clear (output : Output) : Output :=
  match output.mode with
  | .capture => { output with text := "" }
  | .stdout | .silent => output

/-- The text kept for the host. -/
def captured (output : Output) : String := if output.mode = .capture then output.text else ""

/-- The text that went to standard output. -/
def printed (output : Output) : String := if output.mode = .stdout then output.text else ""

end Output

end TreeCalc
