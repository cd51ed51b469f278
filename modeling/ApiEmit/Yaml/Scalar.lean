/-
ApiEmit.Yaml.Scalar — reading scalars.

Between single quotes only the quote itself is written twice; between double quotes
there are escapes. A plain scalar ends at a colon before white space, at a comment,
at a line that is indented less, and inside brackets at a bracket or a comma.
-/
import ApiEmit.Json.Token
import ApiEmit.Yaml.Cursor

namespace ApiEmit.Yaml

open Cursor (Gap)

/-- The characters behind a backslash that stand for one character. -/
def escapes : List (Char × Nat) :=
  [('0', 0), ('a', 7), ('b', 8), ('t', 9), ('\t', 9), ('n', 10), ('v', 11), ('f', 12), ('r', 13),
    ('e', 27), (' ', 32), ('"', 34), ('/', 47), ('\\', 92), ('N', 0x85), ('_', 0xA0),
    ('L', 0x2028), ('P', 0x2029)]

/-- The letters behind a backslash that are followed by hexadecimal digits, and how many. -/
def hexEscapes : List (Char × Nat) := [('x', 2), ('u', 4), ('U', 8)]

/-- The number that hexadecimal digits spell. -/
def hexNumber? (cs : List Char) : Option Nat :=
  cs.foldlM (fun n c => (Json.Token.hexValue? c).map (n * 16 + ·)) 0

/-- Reads an escape behind its backslash. -/
def escape? (c : Cursor) : Option (Char × Cursor) :=
  match c.rest with
  | [] => none
  | e :: rest =>
    match escapes.lookup e with
    | some n => some (Char.ofNat n, c.skip 1)
    | none =>
      match hexEscapes.lookup e with
      | none => none
      | some digits =>
        if rest.length < digits then none
        else
          (hexNumber? (rest.take digits)).bind fun n =>
            if n.isValidChar then some (Char.ofNat n, c.skip (digits + 1)) else none

/-- Where a run of characters between quotes ends. -/
inductive QuotedStop where
  | quote
  | space
  | escapedBreak

/-- Reads the characters between quotes up to the closing quote or to white space. -/
def quotedRun? (single : Bool) : Nat → Cursor → Option (List Char × QuotedStop × Cursor)
  | 0, _ => none
  | fuel + 1, c =>
    let go : List Char → Cursor → Option (List Char × QuotedStop × Cursor) := fun cs c =>
      (quotedRun? single fuel c).map fun (run, stop, c) => (cs ++ run, stop, c)
    match c.rest with
    | [] => none
    | b :: rest =>
      if isBlank b || isBreak b then
        some ([], .space, c)
      else if single then
        if b == '\x27' then
          if rest.head? == some '\x27' then go ['\x27'] (c.skip 2) else some ([], .quote, c.skip 1)
        else
          go [b] (c.skip 1)
      else if b == '"' then
        some ([], .quote, c.skip 1)
      else if b == '\\' then
        match (c.skip 1).lineEnd? with
        | some (_, c) => some ([], .escapedBreak, c)
        | none => (escape? (c.skip 1)).bind fun (e, c) => go [e] c
      else
        go [b] (c.skip 1)

/-- Reads a quoted scalar behind its opening quote. A document marker may not stand in it. -/
def quoted? (single : Bool) : Nat → Cursor → Option (List Char × Cursor)
  | 0, _ => none
  | fuel + 1, c =>
    if c.atMarker then none
    else
      match quotedRun? single (fuel + 1) c with
      | none => none
      | some (run, .quote, c) => some (run, c)
      | some (run, stop, c) =>
        let gap := { Gap.none with broken := stop matches .escapedBreak }
        match Cursor.gap? none (fuel + 1) gap c with
        | none => none
        | some (gap, c) =>
          (quoted? single fuel c).map fun (cs, c) => (run ++ gap.text ++ cs, c)

/-- The characters that end a plain scalar inside brackets. -/
def isFlowMark (c : Char) : Bool := c == ',' || c == '[' || c == ']' || c == '{' || c == '}'

/-- Reads the characters of a plain scalar up to white space or to its end. Inside brackets a colon
may not stand right before a bracket, a comma or a question mark. -/
def plainRun? (flow : Bool) : Nat → Cursor → Option (List Char × Cursor)
  | 0, c => some ([], c)
  | fuel + 1, c =>
    match c.rest with
    | [] => some ([], c)
    | b :: rest =>
      if isBlank b || isBreak b then some ([], c)
      else if flow && b == ':' && (rest.head?.any fun n => isFlowMark n || n == '?') then none
      else if b == ':' && c.blankAt 1 then some ([], c)
      else if flow && isFlowMark b then some ([], c)
      else (plainRun? flow fuel (c.skip 1)).map fun (run, c) => (b :: run, c)

/-- A plain scalar: its text, whether it ended behind a line, and what follows. -/
structure Plain where
  text : List Char
  brokenOff : Bool
  next : Cursor

/-- Reads a plain scalar from behind a gap. It has to be indented by `indent` at least when it goes
on over several lines outside brackets. A gap is kept only when a part follows it. -/
def plain? (flow : Bool) (indent : Int) : Nat → Gap → Cursor → Option Plain
  | 0, gap, c => some ⟨[], gap.broken, c⟩
  | fuel + 1, gap, c =>
    if c.atMarker || c.rest.head? == some '#' then
      some ⟨[], gap.broken, c⟩
    else
      match plainRun? flow (fuel + 1) c with
      | none => none
      | some ([], c) => some ⟨[], gap.broken, c⟩
      | some (run, c) =>
        let text := gap.text ++ run
        if !(c.rest.head?.any fun b => isBlank b || isBreak b) then
          some ⟨text, false, c⟩
        else
          match Cursor.gap? (some indent) (fuel + 1) Gap.none c with
          | none => none
          | some (gap, c) =>
            if !flow && (c.column : Int) < indent then
              some ⟨text, gap.broken, c⟩
            else
              (plain? flow indent fuel gap c).map fun rest =>
                { rest with text := text ++ rest.text }

end ApiEmit.Yaml
