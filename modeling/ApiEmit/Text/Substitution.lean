/-
ApiEmit.Text.Substitution — replacing every occurrence of a pattern.

Occurrences are found from left to right and do not overlap: the search goes on
behind each occurrence, and what was put in is not searched again.
-/

namespace ApiEmit.Text

/-- Leaves out the next `skip` characters, then replaces in what follows. The characters of an
occurrence are left out one by one, so the recursion is on the text alone. -/
def substituteFrom (pattern replacement : List Char) : Nat → List Char → List Char
  | _, [] => []
  | skip + 1, _ :: rest => substituteFrom pattern replacement skip rest
  | 0, c :: rest =>
    if pattern.isPrefixOf (c :: rest) then
      replacement ++ substituteFrom pattern replacement (pattern.length - 1) rest
    else
      c :: substituteFrom pattern replacement 0 rest

/-- The text with each occurrence of a nonempty pattern replaced. -/
def substitute (pattern replacement text : String) : String :=
  String.ofList (substituteFrom pattern.toList replacement.toList 0 text.toList)

end ApiEmit.Text
