import TreeCalc.Text.Unwritten

namespace TreeCalc.Text

/-- A character given by its number, in hexadecimal. -/
def numbered (c : Char) : List Char :=
  ['\\', 'u', '\x7b'] ++ Nat.toDigits 16 c.toNat ++ ['\x7d']

/-- One character inside quotes: the quote and the backslash get a backslash, four controls have a letter of
their own, and what cannot be seen is given by number. -/
def escaped (c : Char) : List Char :=
  if c = '"' then ['\\', '"']
  else if c = '\\' then ['\\', '\\']
  else if c = '\t' then ['\\', 't']
  else if c = '\n' then ['\\', 'n']
  else if c = '\r' then ['\\', 'r']
  else if c = '\x00' then ['\\', '0']
  else if c.toNat < 0x20 || unwritten c then numbered c
  else [c]

/-- A text in double quotes. -/
def quoted (text : String) : String := String.ofList ('"' :: text.toList.flatMap escaped ++ ['"'])

end TreeCalc.Text
