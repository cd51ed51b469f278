/-
ApiEmit.Yaml.BlockScalar — reading scalars that take lines of their own.

The first line of the scalar that is not empty says how far it is indented, unless
its header does. A literal scalar keeps the ends of its lines. In a folded one the
end of a line becomes a space, except around a line that starts with a blank.
-/
import ApiEmit.Yaml.Cursor

namespace ApiEmit.Yaml.BlockScalar

/-- Which ends of lines are kept behind the last line: the first, none, or all. -/
inductive Chomping where
  | clip
  | strip
  | keep
  deriving DecidableEq, Repr

/-! ## Headers -/

/-- The sign of a header, if there is one, and what follows it. -/
def sign : List Char → Chomping × List Char
  | '+' :: rest => (.keep, rest)
  | '-' :: rest => (.strip, rest)
  | cs => (.clip, cs)

/-- The digit of a header, zero if there is none, and what follows it. A zero is malformed. -/
def digit? : List Char → Option (Nat × List Char)
  | [] => some (0, [])
  | c :: rest =>
    if c = '0' then none
    else if c.isDigit then some (c.toNat - '0'.toNat, rest)
    else some (0, c :: rest)

/-- The sign and the digit of a header in either order, and what follows them. -/
def header? (cs : List Char) : Option (Chomping × Nat × List Char) :=
  match sign cs with
  | (.clip, cs) => (digit? cs).map fun (n, rest) => ((sign rest).1, n, (sign rest).2)
  | (chomping, rest) => (digit? rest).map fun (n, rest) => (chomping, n, rest)

/-! ## Lines -/

/-- The empty lines in front of a line: what their ends stand for, the widest indentation passed
over, and where the line starts. -/
structure Margin where
  breaks : List Char
  widest : Nat
  next : Cursor

/-- Passes over empty lines and over the indentation of the line behind them. All spaces count as
indentation while `indent` is zero, and a tab may not stand in it. -/
def margin? (indent : Nat) : Nat → Margin → Option Margin
  | 0, m => some m
  | fuel + 1, m =>
    let spaces := (m.next.rest.takeWhile (· == ' ')).length
    let c := m.next.skip (if indent = 0 then spaces else min spaces (indent - m.next.column))
    let widest := max m.widest c.column
    if (indent = 0 || c.column < indent) && c.rest.head? = some '\t' then none
    else
      match c.lineEnd? with
      | some (value, c) => margin? indent fuel ⟨m.breaks ++ [value], widest, c⟩
      | none => some ⟨m.breaks, widest, c⟩

/-- The text of the lines read so far, what the end of the last of them stands for, whether that
line starts with a blank, and what stands in front of the next one. -/
structure Lines where
  text : List Char
  lineEnd : List Char
  startsBlank : Bool
  margin : Margin

/-- What stands between two lines for the end of the first. Folding drops it for a space, or for
nothing when there are empty lines. -/
def join (folded : Bool) (ls : Lines) (startsBlank : Bool) : List Char :=
  if folded && ls.lineEnd = ['\n'] && !ls.startsBlank && !startsBlank then
    (if ls.margin.breaks.isEmpty then [' '] else [])
  else
    ls.lineEnd

/-- Reads the lines that are indented by `indent`. -/
def lines? (folded : Bool) (indent : Nat) : Nat → Lines → Option Lines
  | 0, ls => some ls
  | fuel + 1, ls =>
    let c := ls.margin.next
    match c.rest with
    | [] => some ls
    | first :: _ =>
      if c.column = indent then
        let line := c.rest.takeWhile fun b => !isBreak b
        let text := ls.text ++ join folded ls (isBlank first) ++ ls.margin.breaks ++ line
        let (lineEnd, c) := match (c.skip line.length).lineEnd? with
          | some (value, c) => ([value], c)
          | none => ([], c.skip line.length)
        (margin? indent (fuel + 1) ⟨[], 0, c⟩).bind fun margin =>
          lines? folded indent fuel ⟨text, lineEnd, isBlank first, margin⟩
      else
        some ls

/-- The whole text of the lines of a scalar. -/
def Lines.chomped (ls : Lines) : Chomping → List Char
  | .clip => ls.text ++ ls.lineEnd
  | .strip => ls.text
  | .keep => ls.text ++ ls.lineEnd ++ ls.margin.breaks

/-- Reads a block scalar behind its indicator; `outer` is the indentation around it. -/
def read? (folded : Bool) (outer : Int) (c : Cursor) : Option (List Char × Cursor) := do
  let (chomping, digit, rest) ← header? c.rest
  let c ← (c.skip (c.rest.length - rest.length)).restOfLine?
  let fuel := c.rest.length + 1
  let given := if digit = 0 then 0 else outer.toNat + digit
  let margin ← margin? given fuel ⟨[], 0, c⟩
  let indent := if given = 0 then max margin.widest (max (outer + 1).toNat 1) else given
  let lines ← lines? folded indent fuel ⟨[], [], false, margin⟩
  return (lines.chomped chomping, lines.margin.next)

end ApiEmit.Yaml.BlockScalar
