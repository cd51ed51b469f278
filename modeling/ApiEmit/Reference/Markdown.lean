/-
ApiEmit.Reference.Markdown — the pieces of a Markdown document.

A document is a list of lines, and every block ends in an empty line.
-/

namespace ApiEmit.Reference.Markdown

/-- A cell of a table: line feeds, with a carriage return before them or without, become breaks,
and bars are escaped. -/
def cellChars : List Char → List Char
  | [] => []
  | '\r' :: '\n' :: rest => '<' :: 'b' :: 'r' :: '>' :: cellChars rest
  | '\n' :: rest => '<' :: 'b' :: 'r' :: '>' :: cellChars rest
  | '|' :: rest => '\\' :: '|' :: cellChars rest
  | c :: rest => c :: cellChars rest

/-- A cell of a table. -/
def cell (value : String) : String := String.ofList (cellChars value.toList)

/-- A text set as code. -/
def code (text : String) : String :=
  String.ofList ('\x60' :: (text.toList ++ ['\x60']))

/-- A row of a table. -/
def row (cells : List String) : String :=
  "| " ++ String.intercalate " | " cells ++ " |"

/-- The line below the head of a table. -/
def rule (columns : Nat) : String := row (List.replicate columns "---")

/-- A heading of a level. -/
def heading (level : Nat) (text : String) : String :=
  String.ofList (List.replicate level '#') ++ " " ++ text

/-- The line that opens or closes a block of code. -/
def fence (language : String) : String :=
  String.ofList (List.replicate 3 '\x60') ++ language

/-- Some lines with an empty line behind them. -/
def block (lines : List String) : List String := lines ++ [""]

/-- The text of a document. -/
def documentText (lines : List String) : String :=
  let text := String.intercalate "\n" lines
  if text.toList.getLast? = some '\n' then text else text ++ "\n"

end ApiEmit.Reference.Markdown
