/-
ApiEmit.Python.Docstring — documentation between three double quotes.

Backslashes are doubled, three quotes in a row are escaped, and so is a quote at
the end that is not escaped already.
-/
import ApiEmit.Text.Lines

namespace ApiEmit.Python

/-- Escapes backslashes and each three quotes in a row. -/
def escapeBody : List Char → List Char
  | [] => []
  | '\\' :: rest => '\\' :: '\\' :: escapeBody rest
  | '"' :: '"' :: '"' :: rest =>
    '\\' :: '"' :: '\\' :: '"' :: '\\' :: '"' :: escapeBody rest
  | c :: rest => c :: escapeBody rest

/-- Escapes a quote at the end, unless a backslash stands before it. The characters are given from
the last to the first. -/
def escapeLast : List Char → List Char
  | '"' :: '\\' :: rest => '"' :: '\\' :: rest
  | '"' :: rest => '"' :: '\\' :: rest
  | rest => rest

/-- The characters of a documentation text between its delimiters. -/
def docstringChars (doc : List Char) : List Char :=
  (escapeLast (escapeBody doc).reverse).reverse

/-- A documentation text escaped for its delimiters. -/
def escapeDocstring (doc : String) : String :=
  String.ofList (docstringChars doc.toList)

/-- The delimiter of documentation. -/
def docDelimiter : String := "\"\"\""

/-- A documentation text as a statement, with all its lines indented. -/
def docstring (doc indent : String) : String :=
  indent ++ docDelimiter ++
    String.intercalate ("\n" ++ indent) (Text.lines (escapeDocstring doc)) ++ docDelimiter

end ApiEmit.Python
