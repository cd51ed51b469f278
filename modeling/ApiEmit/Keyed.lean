/-
ApiEmit.Keyed — lists of entries that are told apart by a key.

Of several entries for one key either the last counts, which then stands where the
first stood, or only the first does. Both ways the keys are in the order of their
first appearance.
-/

namespace ApiEmit.Keyed

variable {α κ : Type} [DecidableEq κ]

/-! ## The last entry counts -/

/-- Puts an entry where the one for its key stands, or else at the end. -/
def put (key : α → κ) (entry : α) : List α → List α
  | [] => [entry]
  | first :: rest =>
    if key first = key entry then entry :: rest else first :: put key entry rest

/-- The last entry for each key of a list. -/
def ofList (key : α → κ) (entries : List α) : List α :=
  entries.foldl (fun kept entry => put key entry kept) []

/-! ## The first entry counts -/

/-- Adds an entry at the end, unless there is one for its key. -/
def add (key : α → κ) (kept : List α) (entry : α) : List α :=
  if key entry ∈ kept.map key then kept else kept ++ [entry]

/-- The first entry for each key of a list. -/
def firsts (key : α → κ) (entries : List α) : List α :=
  entries.foldl (add key) []

/-! ## All entries count -/

/-- Adds an entry to the group of its key, which is made at the end when it is missing. -/
def addToGroup (key : κ) (entry : α) : List (κ × List α) → List (κ × List α)
  | [] => [(key, [entry])]
  | (other, members) :: groups =>
    if other = key then (other, members ++ [entry]) :: groups
    else (other, members) :: addToGroup key entry groups

/-- The entries of a list by key, each group in the order of the list. -/
def groupBy (key : α → κ) (entries : List α) : List (κ × List α) :=
  entries.foldl (fun groups entry => addToGroup (key entry) entry groups) []

end ApiEmit.Keyed
