/-
ApiEmit.Yaml.Node — the value that a YAML text spells.

A text holds at most one document, which directives may stand in front of. Where a
value is left out an empty plain scalar stands for it; a sequence that is the value
of a key may stand as far left as the key. An alias stays in the value: it may stand
inside the node that it stands for.
-/
import ApiEmit.Yaml.Token

namespace ApiEmit.Yaml

/-- A YAML value. -/
inductive Node where
  | scalar (text : String) (style : ScalarStyle) (tag : Option String)
  | sequence (items : List Node)
  | mapping (entries : List (Node × Node))
  | anchored (slot : Nat) (node : Node)
  | alias (slot : Nat)
  deriving Repr, Inhabited

/-- What may stand in front of a value. -/
structure Properties where
  anchor : Option Nat
  tag : Option Tag
  deriving Repr

namespace Properties

/-- Reads an anchor and a tag in either order. -/
def read : List Token → Properties × List Token
  | .anchor slot :: .tag t :: rest => (⟨some slot, some t⟩, rest)
  | .tag t :: .anchor slot :: rest => (⟨some slot, some t⟩, rest)
  | .anchor slot :: rest => (⟨some slot, none⟩, rest)
  | .tag t :: rest => (⟨none, some t⟩, rest)
  | rest => (⟨none, none⟩, rest)

/-- Whether anything stands in front of a value. -/
def given (p : Properties) : Bool := p.anchor.isSome || p.tag.isSome

/-- The whole tag, if there is one; an exclamation mark alone is none, and what spells no text
neither. It is a fault if nothing says what the handle stands for. -/
def tagText? (handles : Handles) (p : Properties) : Option (Option String) :=
  match p.tag with
  | none => some none
  | some t =>
    (t.octets? handles).map fun octets => if octets = "!" then none else Tag.decode? octets

/-- A value with the anchor in front of it. -/
def anchoring (p : Properties) (node : Node) : Node :=
  match p.anchor with
  | some slot => .anchored slot node
  | none => node

end Properties

namespace Node

/-- What stands for a value that is left out. -/
def empty : Node := .scalar "" .plain none

/-! ## Reading -/

/-- Whether a value is left out before a token. -/
def isLeftOut (ends : List Token) : List Token → Bool
  | [] => true
  | t :: _ => ends.contains t

section

variable (handles : Handles)

mutual

/-- Reads a value. Within brackets only scalars and brackets are values; `indentless` says whether
a sequence may start without opening a block, and `handles` what the handles of tags stand for. -/
def read? (block indentless : Bool) :
    Nat → List Token → Option (Node × List Token)
  | 0, _ => none
  | fuel + 1, tokens =>
    match tokens with
    | .alias slot :: rest => some (.alias slot, rest)
    | tokens =>
      let (p, rest) := Properties.read tokens
      (p.tagText? handles).bind fun tag =>
        (bare? block indentless p.given tag fuel rest).map fun (node, rest) =>
          (p.anchoring node, rest)

/-- Reads a value behind its properties. It may be left out if there are any. -/
def bare? (block indentless given : Bool) (tag : Option String) :
    Nat → List Token → Option (Node × List Token)
  | 0, _ => none
  | fuel + 1, tokens =>
    let leftOut := if given then some (.scalar "" .plain tag, tokens) else none
    match tokens with
    | .scalar text style :: rest => some (.scalar text style tag, rest)
    | .openFlowSequence :: rest =>
      (flowItems? fuel true rest).map fun (items, rest) => (.sequence items, rest)
    | .openFlowMapping :: rest =>
      (flowEntries? fuel true rest).map fun (entries, rest) => (.mapping entries, rest)
    | .openBlockSequence :: rest =>
      if block then
        (blockItems? fuel rest).map fun (items, rest) => (.sequence items, rest)
      else leftOut
    | .openBlockMapping :: rest =>
      if block then
        (blockEntries? fuel rest).map fun (entries, rest) => (.mapping entries, rest)
      else leftOut
    | .blockEntry :: _ =>
      if block && indentless then
        (indentlessItems? fuel tokens).map fun (items, rest) => (.sequence items, rest)
      else leftOut
    | _ => leftOut

/-- Reads a value, or takes it as left out when one of some tokens stands there. -/
def readOr? (block indentless : Bool) (ends : List Token) :
    Nat → List Token → Option (Node × List Token)
  | 0, _ => none
  | fuel + 1, tokens =>
    if isLeftOut ends tokens then some (empty, tokens) else read? block indentless fuel tokens

/-- Reads the items of a sequence up to the end of its block. -/
def blockItems? : Nat → List Token → Option (List Node × List Token)
  | 0, _ => none
  | fuel + 1, tokens =>
    match tokens with
    | .closeBlock :: rest => some ([], rest)
    | .blockEntry :: rest =>
      (readOr? true false [.blockEntry, .closeBlock] fuel rest).bind fun (item, rest) =>
        (blockItems? fuel rest).map fun (items, rest) => (item :: items, rest)
    | _ => none

/-- Reads the items of a sequence that has no block of its own. -/
def indentlessItems? : Nat → List Token → Option (List Node × List Token)
  | 0, _ => none
  | fuel + 1, tokens =>
    match tokens with
    | .blockEntry :: rest =>
      (readOr? true false [.blockEntry, .key, .value, .closeBlock] fuel rest).bind
        fun (item, rest) =>
          (indentlessItems? fuel rest).map fun (items, rest) => (item :: items, rest)
    | _ => some ([], tokens)

/-- Reads the entries of a mapping up to the end of its block. -/
def blockEntries? : Nat → List Token → Option (List (Node × Node) × List Token)
  | 0, _ => none
  | fuel + 1, tokens =>
    match tokens with
    | .closeBlock :: rest => some ([], rest)
    | .key :: rest =>
      (readOr? true true [.key, .value, .closeBlock] fuel rest).bind fun (key, rest) =>
        (value? true [.key, .value, .closeBlock] fuel rest).bind fun (value, rest) =>
          (blockEntries? fuel rest).map fun (entries, rest) => ((key, value) :: entries, rest)
    | _ => none

/-- Reads the value behind a key, which may be left out with its colon. -/
def value? (block : Bool) (ends : List Token) : Nat → List Token → Option (Node × List Token)
  | 0, _ => none
  | fuel + 1, tokens =>
    match tokens with
    | .value :: rest => readOr? block block ends fuel rest
    | _ => some (empty, tokens)

/-- Reads the items of a sequence in brackets. An item may not be a key. -/
def flowItems? : Nat → Bool → List Token → Option (List Node × List Token)
  | 0, _, _ => none
  | fuel + 1, first, tokens =>
    match first, tokens with
    | _, .closeFlowSequence :: rest => some ([], rest)
    | false, .flowEntry :: .closeFlowSequence :: rest => some ([], rest)
    | false, .flowEntry :: rest =>
      (read? false false fuel rest).bind fun (item, rest) =>
        (flowItems? fuel false rest).map fun (items, rest) => (item :: items, rest)
    | true, tokens =>
      (read? false false fuel tokens).bind fun (item, rest) =>
        (flowItems? fuel false rest).map fun (items, rest) => (item :: items, rest)
    | _, _ => none

/-- Reads the entries of a mapping in brackets. -/
def flowEntries? : Nat → Bool → List Token → Option (List (Node × Node) × List Token)
  | 0, _, _ => none
  | fuel + 1, first, tokens =>
    match first, tokens with
    | _, .closeFlowMapping :: rest => some ([], rest)
    | false, .flowEntry :: .closeFlowMapping :: rest => some ([], rest)
    | false, .flowEntry :: rest => flowEntry? fuel rest
    | true, tokens => flowEntry? fuel tokens
    | _, _ => none

/-- Reads one entry of a mapping in brackets and those behind it. -/
def flowEntry? : Nat → List Token → Option (List (Node × Node) × List Token)
  | 0, _ => none
  | fuel + 1, tokens =>
    match tokens with
    | .key :: rest =>
      (readOr? false false [.value, .flowEntry, .closeFlowMapping] fuel rest).bind
        fun (key, rest) =>
          (value? false [.flowEntry, .closeFlowMapping] fuel rest).bind fun (value, rest) =>
            (flowEntries? fuel false rest).map fun (entries, rest) =>
              ((key, value) :: entries, rest)
    | tokens =>
      (read? false false fuel tokens).bind fun (key, rest) =>
        (flowEntries? fuel false rest).map fun (entries, rest) => ((key, empty) :: entries, rest)

end

end

/-- The directives in front of the other tokens. -/
def directives : List Token → List Directive × List Token
  | .directive d :: rest =>
    let (ds, rest) := directives rest
    (d :: ds, rest)
  | rest => ([], rest)

/-- The tokens behind the only document of a text, and its value. A value may be left out only
behind the marker of a document, and directives have to have that marker behind them. -/
def content? (tokens : List Token) : Option (Node × List Token) :=
  let fuel := 8 * tokens.length + 8
  let (ds, rest) := directives tokens
  (Directive.handles? ds).bind fun handles =>
    match rest with
    | .documentStart :: rest =>
      readOr? handles true false [.documentStart, .documentEnd] fuel rest
    | rest => if ds.isEmpty then read? handles true false fuel rest else none

/-- Reads the only document of a text; `some none` stands for a text without a document. -/
def document? (tokens : List Token) : Option (Option Node) :=
  if tokens.isEmpty then
    some none
  else
    (content? tokens).bind fun (node, rest) =>
      if rest.all (· == .documentEnd) then some (some node) else none

/-- The value of a YAML text; `some none` when it has none. -/
def ofText? (text : String) : Option (Option Node) :=
  (scan? text).bind document?

/-! ## Anchors -/

mutual

/-- The slots of the anchors in a node and what they name, in the order of the text. -/
def anchors : Node → List (Nat × Node)
  | .anchored slot node => (slot, node) :: anchors node
  | .sequence items => itemAnchors items
  | .mapping entries => entryAnchors entries
  | .scalar _ _ _ => []
  | .alias _ => []

/-- The anchors in the items of a sequence. -/
def itemAnchors : List Node → List (Nat × Node)
  | [] => []
  | item :: items => anchors item ++ itemAnchors items

/-- The anchors in the entries of a mapping. -/
def entryAnchors : List (Node × Node) → List (Nat × Node)
  | [] => []
  | (key, value) :: entries => anchors key ++ anchors value ++ entryAnchors entries

end

/-- What the slots in a node stand for. Of two anchors with one slot the last counts. -/
def targets (root : Node) : List (Nat × Node) := root.anchors.reverse

/-- A node without its anchor, or what it stands for as an alias. -/
def resolve? (targets : List (Nat × Node)) : Node → Option Node
  | .anchored _ node => resolve? targets node
  | .alias slot => targets.lookup slot
  | node => some node

end Node

end ApiEmit.Yaml
