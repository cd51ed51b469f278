/-
ApiEmit.Host.LineEnding — the ends of the lines of a file.
-/

namespace ApiEmit

/-- How lines end. -/
inductive LineEnding where
  | lf
  | crlf
  deriving DecidableEq, Repr

namespace LineEnding

/-- The characters with a line feed for each carriage return and line feed. -/
def toLf : List Char → List Char
  | [] => []
  | '\r' :: '\n' :: rest => '\n' :: toLf rest
  | c :: rest => c :: toLf rest

/-- The characters with a carriage return in front of each line feed. -/
def addReturns : List Char → List Char
  | [] => []
  | c :: rest => if c = '\n' then '\r' :: '\n' :: addReturns rest else c :: addReturns rest

/-- The characters of a text with its lines ended one way. Line feeds are left as they are. -/
def applyChars : LineEnding → List Char → List Char
  | .lf, text => text
  | .crlf, text => addReturns (toLf text)

/-- A text with its lines ended one way. -/
def apply (ending : LineEnding) (text : String) : String :=
  String.ofList (ending.applyChars text.toList)

end LineEnding

end ApiEmit
