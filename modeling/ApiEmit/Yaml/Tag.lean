/-
ApiEmit.Yaml.Tag — reading tags.

A tag is written as a handle and a suffix, and the document says what its handles
stand for. An escape stands for an octet, and is kept as the character of that number
until the tag is whole. Only the number of octets of a character is checked before,
so a whole tag may still spell no text.
-/
import ApiEmit.Yaml.Scalar

namespace ApiEmit.Yaml

/-- A tag as it is written. Without a handle the suffix is all of it. -/
structure Tag where
  handle : String
  suffix : String
  deriving DecidableEq, Repr

/-- What the handles of tags stand for. -/
abbrev Handles := List (String × String)

namespace Tag

/-- A character of a suffix. One between angle brackets may also hold square brackets and commas. -/
def isSuffixChar (verbatim : Bool) (c : Char) : Bool :=
  isNameChar c ||
    [';', '/', '?', ':', '@', '&', '=', '+', '$', '.', '%', '!', '~', '*', '\x27', '(',
      ')'].contains c ||
    (verbatim && (c == ',' || c == '[' || c == ']'))

/-- How many octets a character has that starts with an octet. -/
def octetCount? (octet : Nat) : Option Nat :=
  if octet < 0x80 then some 1
  else if octet < 0xC0 then none
  else if octet < 0xE0 then some 2
  else if octet < 0xF0 then some 3
  else if octet < 0xF8 then some 4
  else none

/-- A suffix without its escapes, where `owed` octets are missing to the character in front. -/
def unescape? : Nat → List Char → Option (List Char)
  | 0, [] => some []
  | _ + 1, [] => none
  | 0, '%' :: a :: b :: rest =>
    (hexNumber? [a, b]).bind fun octet => (octetCount? octet).bind fun count =>
      (unescape? (count - 1) rest).map (Char.ofNat octet :: ·)
  | owed + 1, '%' :: a :: b :: rest =>
    (hexNumber? [a, b]).bind fun octet =>
      if 0x80 ≤ octet && octet < 0xC0 then (unescape? owed rest).map (Char.ofNat octet :: ·)
      else none
  | 0, c :: rest => if c = '%' then none else (unescape? 0 rest).map (c :: ·)
  | _ + 1, _ :: _ => none

/-- Reads a suffix. Its text ends at the character NUL. -/
def suffix? (verbatim : Bool) (c : Cursor) : Option (String × Cursor) :=
  let written := c.rest.takeWhile (isSuffixChar verbatim)
  (unescape? 0 written).map fun text =>
    (String.ofList (text.takeWhile (· ≠ '\x00')), c.skip written.length)

/-- Reads a suffix that is not empty. -/
def someSuffix? (verbatim : Bool) (c : Cursor) : Option (String × Cursor) :=
  if c.rest.head?.any (isSuffixChar verbatim) then suffix? verbatim c else none

/-- Reads a handle: an exclamation mark, or a name between two of them. What has no second one may
be the start of a tag, but is no handle unless it is the mark alone. -/
def readHandle (c : Cursor) : String × Bool × Cursor :=
  let name := (c.rest.drop 1).takeWhile isNameChar
  let c := c.skip (name.length + 1)
  if c.rest.head? = some '!' then (String.ofList ('!' :: name ++ ['!']), true, c.skip 1)
  else (String.ofList ('!' :: name), false, c)

/-- Reads a tag from its exclamation mark on. The mark alone is a tag, too. -/
def read? (c : Cursor) : Option (Tag × Cursor) :=
  if (c.rest.drop 1).head? = some '<' then
    (someSuffix? true (c.skip 2)).bind fun (suffix, c) =>
      if c.rest.head? = some '>' then some (⟨"", suffix⟩, c.skip 1) else none
  else
    match readHandle c with
    | (name, true, c) => (someSuffix? false c).map fun (suffix, c) => (⟨name, suffix⟩, c)
    | (_, false, _) =>
      (suffix? false (c.skip 1)).map fun (suffix, c) =>
        (if suffix = "" then ⟨"", "!"⟩ else ⟨"!", suffix⟩, c)

/-- The text that octets spell. -/
def decode? (octets : String) : Option String :=
  String.fromUTF8? ⟨(octets.toList.map fun c => c.toNat.toUInt8).toArray⟩

/-- The octets of the whole tag. -/
def octets? (handles : Handles) (t : Tag) : Option String :=
  if t.handle = "" then some t.suffix else (handles.lookup t.handle).map (· ++ t.suffix)

end Tag

end ApiEmit.Yaml
