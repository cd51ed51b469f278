/-
ApiEmit.Python.Quoted — Python string literals.

A literal stands between double quotes. Quotes, backslashes and control characters
are escaped, all other characters stand for themselves.
-/
import ApiEmit.Json.Value

namespace ApiEmit.Python

/-- The control characters of Unicode. -/
def isControl (c : Char) : Bool :=
  c.toNat < 0x20 || (0x7F ≤ c.toNat && c.toNat < 0xA0)

/-- A character as it stands in a literal. -/
def quoteChar (c : Char) : List Char :=
  if c = '"' then ['\\', '"']
  else if c = '\\' then ['\\', '\\']
  else if c = '\n' then ['\\', 'n']
  else if c = '\r' then ['\\', 'r']
  else if c = '\t' then ['\\', 't']
  else if isControl c then '\\' :: 'u' :: Json.hex4 c.toNat
  else [c]

/-- The characters of the literal for a text. -/
def quoteChars (s : List Char) : List Char :=
  '"' :: (s.flatMap quoteChar ++ ['"'])

/-- The literal for a text. -/
def quote (s : String) : String :=
  String.ofList (quoteChars s.toList)

end ApiEmit.Python
