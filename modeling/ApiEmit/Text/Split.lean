/-
ApiEmit.Text.Split — cutting a text at every occurrence of one character.

A text with n separators has n + 1 parts, some of which may be empty; the empty
text has one empty part.
-/

namespace ApiEmit.Text

/-- The parts between the separators, at least one. -/
def splitList (separator : Char) : List Char → List (List Char)
  | [] => [[]]
  | c :: rest =>
    if c = separator then
      [] :: splitList separator rest
    else
      match splitList separator rest with
      | [] => [[c]]
      | part :: parts => (c :: part) :: parts

/-- The parts of a string between the separators. -/
def split (separator : Char) (text : String) : List String :=
  (splitList separator text.toList).map String.ofList

theorem splitList_ne_nil (separator : Char) (cs : List Char) : splitList separator cs ≠ [] := by
  cases cs with
  | nil => simp [splitList]
  | cons c rest =>
    simp only [splitList]
    split
    · simp
    · split <;> simp

end ApiEmit.Text
