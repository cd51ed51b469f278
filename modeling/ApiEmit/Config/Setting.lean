/-
ApiEmit.Config.Setting — the values of settings.

A setting is read as a text, as a truth value, as a word, as a list or as a record;
which of these a value allows depends on the format it is written in. In YAML any
scalar is a text, a value that is left out is an empty list and an empty record too,
and a word may be written as a tag. In JSON a list can stand for a record: it has the
first entries in their order.
-/
import ApiEmit.Json.Value
import ApiEmit.Yaml.Node

namespace ApiEmit.Config

/-- What a single value can be read as. A word is one of a few names that a setting chooses from. -/
structure Reading where
  text : Option String
  flag : Option Bool
  word : Option String
  leftOut : Bool
  deriving DecidableEq, Repr, Inhabited

/-- The value of a setting. A list may be able to stand for a record. -/
inductive Setting where
  | single (reading : Reading)
  | list (items : List Setting) (positional : Bool)
  | record (entries : List (String × Setting))
  deriving Repr, Inhabited

namespace Setting

/-- What a value that is not there is read as. -/
def leftOut : Setting := .single ⟨some "", none, some "", true⟩

/-- The text of a setting. -/
def text? : Setting → Option String
  | .single reading => reading.text
  | _ => none

/-- The truth value of a setting. -/
def flag? : Setting → Option Bool
  | .single reading => reading.flag
  | _ => none

/-- The word of a setting. -/
def word? : Setting → Option String
  | .single reading => reading.word
  | _ => none

/-- The items of a setting. -/
def list? : Setting → Option (List Setting)
  | .list items _ => some items
  | .single reading => if reading.leftOut then some [] else none
  | .record _ => none

/-- The entries of a setting. They have certain names, none of them twice; a list that can stand for
them takes the names in their order. -/
def record? (names : List String) : Setting → Option (List (String × Setting))
  | .record entries =>
    let given := entries.map (·.1)
    if given ⊆ names ∧ given.Nodup then some entries else none
  | .list items true => if items.length ≤ names.length then some (names.zip items) else none
  | .list _ false => none
  | .single reading => if reading.leftOut then some [] else none

/-- The value of an entry, or else a fallback. -/
def entry? {α : Type} (entries : List (String × Setting)) (name : String) (fallback : α)
    (read : Setting → Option α) : Option α :=
  match entries.lookup name with
  | some setting => read setting
  | none => some fallback

/-! ## YAML -/

/-- The truth value of a YAML scalar, a word in one of three ways to write it. -/
def yamlFlag? (text : String) : Option Bool :=
  if ["true", "True", "TRUE"].contains text then some true
  else if ["false", "False", "FALSE"].contains text then some false
  else none

/-- The words for nothing. -/
def isYamlNull (text : String) : Bool := ["~", "null", "Null", "NULL"].contains text

/-- The tag of truth values. -/
def flagTag : String := "tag:yaml.org,2002:bool"

/-- The word of a YAML scalar: its text, unless a tag that a document makes up, which starts with an
exclamation mark, is the word. Nothing may be behind such a tag. -/
def yamlWord? (text : String) (plain : Bool) (tag : Option String) : Option String :=
  match tag.map String.toList with
  | some ('!' :: name) =>
    if text == "" || (plain && isYamlNull text) then some (String.ofList name) else none
  | _ => some text

/-- What a YAML scalar can be read as. It takes a plain one to be a truth value, or else a literal
one with the tag for it. -/
def yamlReading (text : String) (style : Yaml.ScalarStyle) (tag : Option String) : Reading where
  text := some text
  flag :=
    if style = .plain || (style = .literal && tag = some flagTag) then yamlFlag? text else none
  word := yamlWord? text (style = .plain) tag
  leftOut := style = .plain && text = ""

/-- How deep the lists and records of a configuration nest: it holds options, and these hold those
of an emitter. The bound makes reading end for an alias that stands inside what it stands for. -/
def maxDepth : Nat := 3

/-- The key of an entry of a YAML mapping, which has to be a scalar. -/
def yamlKey? (targets : List (Nat × Yaml.Node)) (key : Yaml.Node) : Option String :=
  match key.resolve? targets with
  | some (.scalar text _ _) => some text
  | _ => none

/-- The setting of a YAML value in which lists and records nest up to a depth. -/
def ofYamlWithin? (targets : List (Nat × Yaml.Node)) (depth : Nat) (node : Yaml.Node) :
    Option Setting :=
  match depth, node.resolve? targets with
  | _, some (.scalar text style tag) => some (.single (yamlReading text style tag))
  | depth + 1, some (.sequence items) =>
    (items.mapM (ofYamlWithin? targets depth)).map fun items => .list items false
  | depth + 1, some (.mapping entries) =>
    (entries.mapM fun (key, value) =>
      match yamlKey? targets key, ofYamlWithin? targets depth value with
      | some name, some s => some (name, s)
      | _, _ => none).map .record
  | _, _ => none

/-- The setting of a YAML value. -/
def ofYaml? (root : Yaml.Node) : Option Setting := ofYamlWithin? root.targets maxDepth root

/-! ## JSON -/

mutual

/-- The setting of a JSON value, where only a string is a text. -/
def ofJson : Json.Value → Setting
  | .string s => .single ⟨some s, none, some s, false⟩
  | .bool b => .single ⟨none, some b, none, false⟩
  | .null => .single ⟨none, none, none, false⟩
  | .number _ => .single ⟨none, none, none, false⟩
  | .array items => .list (ofJsonItems items) true
  | .object members => .record (ofJsonMembers members)

/-- The settings of the items of a JSON array. -/
def ofJsonItems : List Json.Value → List Setting
  | [] => []
  | item :: items => ofJson item :: ofJsonItems items

/-- The settings of the members of a JSON object. -/
def ofJsonMembers : List (String × Json.Value) → List (String × Setting)
  | [] => []
  | (name, value) :: members => (name, ofJson value) :: ofJsonMembers members

end

end Setting

end ApiEmit.Config
