/-
ApiEmit.Host.Path — when two paths are the same.

Repeated and final slashes make no difference, and neither does a dot as a part of
a path, unless a relative path starts with it.
-/
import ApiEmit.Text.Split

namespace ApiEmit.Path

/-- A path by what makes it the same as others. -/
structure Key where
  absolute : Bool
  parts : List String
  deriving DecidableEq, Repr

/-- Whether a part of a path stands for something. -/
def isPart (part : String) : Bool := part ≠ "" && part ≠ "."

/-- What makes a path the same as others. -/
def key (path : String) : Key :=
  match Text.split '/' path with
  | [] => ⟨false, []⟩
  | "." :: rest => ⟨false, "." :: rest.filter isPart⟩
  | first :: rest => ⟨first == "" && !rest.isEmpty, (first :: rest).filter isPart⟩

/-- A path below a directory. -/
def join (directory path : String) : String :=
  if path.toList.head? = some '/' || directory = "" then path
  else if directory.toList.getLast? = some '/' then directory ++ path
  else directory ++ "/" ++ path

/-- Drops the parts at the end that stand for nothing, the last part first. The first part of a
relative path counts even when it is a dot. -/
def trimParts : List String → List String
  | [] => []
  | ["."] => ["."]
  | part :: rest => if isPart part then part :: rest else trimParts rest

/-- The parts of a path without the last one, or `none` when there is none. -/
def initParts? (parts : List String) : Option (List String) :=
  match trimParts parts.reverse with
  | [] => none
  | _ :: rest => some (trimParts rest).reverse

/-- The directory that a path lies in. -/
def parent? (path : String) : Option String :=
  match Text.split '/' path with
  | "" :: part :: parts =>
    (initParts? (part :: parts)).map fun parts => "/" ++ String.intercalate "/" parts
  | parts => (initParts? parts).map (String.intercalate "/")

end ApiEmit.Path
