/-
ApiEmit.Text.Lines — cutting a text into its lines.

A line ends at a line feed or at the end of the text. A carriage return right
before the line feed belongs to the line ending, one anywhere else belongs to
the line. A text that ends in a line feed has no empty line after it.
-/

namespace ApiEmit.Text

/-- Puts a character in front of the first line, which it opens when there is none. -/
def consFirst (c : Char) : List (List Char) → List (List Char)
  | [] => [[c]]
  | line :: rest => (c :: line) :: rest

/-- The lines of a text, without their endings. -/
def linesOf : List Char → List (List Char)
  | [] => []
  | '\r' :: '\n' :: rest => [] :: linesOf rest
  | '\n' :: rest => [] :: linesOf rest
  | c :: rest => consFirst c (linesOf rest)

/-- The lines of a string, without their endings. -/
def lines (text : String) : List String :=
  (linesOf text.toList).map String.ofList

theorem consFirst_ne_nil (c : Char) (ls : List (List Char)) : consFirst c ls ≠ [] := by
  cases ls <;> simp [consFirst]

end ApiEmit.Text
