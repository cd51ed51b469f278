/-
ApiEmit.Python.Identifier — names that Python takes as identifiers.

Only ASCII names count, although Python takes more. A name that does not count is
made to: characters that are not allowed become underscores, a digit in front gets
one before it, and a keyword gets one behind it.
-/

namespace ApiEmit.Python

/-- The reserved words of Python. -/
def keywords : List String :=
  ["False", "None", "True", "and", "as", "assert", "async", "await", "break", "class",
    "continue", "def", "del", "elif", "else", "except", "finally", "for", "from", "global",
    "if", "import", "in", "is", "lambda", "nonlocal", "not", "or", "pass", "raise", "return",
    "try", "while", "with", "yield"]

/-- The characters of identifiers. -/
def isNameChar (c : Char) : Bool := c.isAlphanum || c == '_'

/-- The characters that an identifier can start with. -/
def isNameStart (c : Char) : Bool := c.isAlpha || c == '_'

/-- Whether a name can be used as it is. -/
def isIdentifier (name : String) : Bool :=
  (match name.toList with
    | [] => false
    | c :: rest => isNameStart c && rest.all isNameChar) && !keywords.contains name

/-- The characters of an identifier for a name, before keywords are told apart. -/
def identifierChars (name : List Char) : List Char :=
  match name.map fun c => if isNameChar c then c else '_' with
  | [] => []
  | c :: rest => if c.isDigit then '_' :: c :: rest else c :: rest

/-- An identifier for a name. -/
def identifier (name : String) : String :=
  if name = "" then
    "_empty"
  else
    let chars := String.ofList (identifierChars name.toList)
    if keywords.contains chars then chars ++ "_" else chars

end ApiEmit.Python
