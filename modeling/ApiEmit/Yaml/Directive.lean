/-
ApiEmit.Yaml.Directive — the directives in front of a document.

A directive takes a line. It names the version of the language, or says what a handle
of tags stands for.
-/
import ApiEmit.Yaml.Tag

namespace ApiEmit.Yaml

/-- A directive of a document. -/
inductive Directive where
  | version (major minor : Nat)
  | handle (name expansion : String)
  deriving DecidableEq, Repr

namespace Directive

/-- Reads a number of nine digits at most. -/
def number? (c : Cursor) : Option (Nat × Cursor) :=
  let digits := c.rest.takeWhile Char.isDigit
  if digits.isEmpty || 9 < digits.length then none
  else some (digits.foldl (fun n d => n * 10 + (d.toNat - '0'.toNat)) 0, c.skip digits.length)

/-- Reads a version: two numbers with a point between them. -/
def readVersion? (c : Cursor) : Option (Directive × Cursor) := do
  let (major, c) ← number? c.skipBlanks
  if c.rest.head? = some '.' then
    let (minor, c) ← number? (c.skip 1)
    return (.version major minor, c)
  else
    none

/-- Reads a handle and what it stands for, each with a blank behind it or at the end of the line. -/
def readHandle? (c : Cursor) : Option (Directive × Cursor) :=
  let c := c.skipBlanks
  let (name, closed, d) := Tag.readHandle c
  if c.rest.head? = some '!' && (closed || name = "!") && d.rest.head?.any isBlank then
    (Tag.someSuffix? true d.skipBlanks).bind fun (expansion, c) =>
      if c.blankAt 0 then some (.handle name expansion, c) else none
  else
    none

/-- Reads a directive from its percent sign on, with the end of its line. -/
def read? (c : Cursor) : Option (Directive × Cursor) := do
  let name := (c.rest.drop 1).takeWhile isNameChar
  let c := c.skip (name.length + 1)
  let (directive, c) ←
    if !c.blankAt 0 then none
    else if name = ['Y', 'A', 'M', 'L'] then readVersion? c
    else if name = ['T', 'A', 'G'] then readHandle? c
    else none
  let c ← c.restOfLine?
  return (directive, c)

/-- The version that a directive names. -/
def version? : Directive → Option (Nat × Nat)
  | .version major minor => some (major, minor)
  | .handle _ _ => none

/-- The handle that a directive explains, and what it stands for. -/
def expansion? : Directive → Option (String × String)
  | .version _ _ => none
  | .handle name expansion => some (name, expansion)

/-- What handles stand for without a directive. -/
def standardHandles : Handles := [("!", "!"), ("!!", "tag:yaml.org,2002:")]

/-- What handles stand for behind some directives. One version may be named, of two that are known,
and no handle may be explained twice. -/
def handles? (ds : List Directive) : Option Handles :=
  let versions := ds.filterMap version?
  let given := ds.filterMap expansion?
  if versions.length ≤ 1 && versions.all (fun v => v = (1, 1) || v = (1, 2)) &&
      (given.map (·.1)).Nodup then
    some (given ++ standardHandles)
  else
    none

end Directive

end ApiEmit.Yaml
