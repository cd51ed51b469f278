/-
ApiEmit.Proofs.PrintedText — what the text of a module consists of.

The printer joins lines and sections. Here the same is said by rules that do not mention the
printer: what stands in an import line, in the lines of a class, and between two sections. A
module's text has its import lines in one section, if there are any, and then a section for each
statement, in their order, and nothing else (`moduleText_text`).
-/
import ApiEmit.Python.Printer
import Mathlib.Data.List.Forall2

namespace ApiEmit.Python

/-! ## Parts of a text -/

/-- A text of some parts in order, with one text between each two and another behind the last. -/
inductive Separated (between behind : String) : List String → String → Prop
  | last (part : String) : Separated between behind [part] (part ++ behind)
  | next {rest : List String} {text : String} (part : String)
      (h : Separated between behind rest text) :
      Separated between behind (part :: rest) (part ++ between ++ text)

/-- Joining puts the separator between the parts. -/
theorem separated_intercalate {between behind : String} {parts : List String} (h : parts ≠ []) :
    Separated between behind parts (String.intercalate between parts ++ behind) := by
  induction parts with
  | nil => exact absurd rfl h
  | cons first rest ih =>
    cases rest with
    | nil =>
      rw [String.intercalate_singleton]
      exact .last first
    | cons second rest =>
      rw [String.intercalate_cons_cons, String.append_assoc]
      exact .next first (ih (List.cons_ne_nil _ _))

/-- Lines one below the other, with nothing behind the last. -/
abbrev InLines : List String → String → Prop := Separated "\n" ""

theorem inLines_intercalate {lines : List String} (h : lines ≠ []) :
    InLines lines (String.intercalate "\n" lines) := by
  have hlines := @separated_intercalate "\n" "" lines h
  rwa [String.append_empty] at hlines

/-! ## Imports -/

/-- The line of an import: where from, and the names with commas between them. -/
inductive ImportLine (i : Import) : String → Prop
  | intro : ImportLine i ("from " ++ i.source ++ " import " ++ String.intercalate ", " i.names)

/-- The sections of some imports: none without imports, else one with a line for each. -/
inductive ImportSections : List Import → List String → Prop
  | none : ImportSections [] []
  | one {imports : List Import} {lines : List String} {text : String}
      (hlines : List.Forall₂ ImportLine imports lines) (h : InLines lines text) :
      ImportSections imports [text]

/-- What a module prints in front of its statements. -/
def importTexts (imports : List Import) : List String :=
  if imports.isEmpty then [] else [String.intercalate "\n" (imports.map Import.text)]

theorem importSections_importTexts (imports : List Import) :
    ImportSections imports (importTexts imports) := by
  cases imports with
  | nil => exact .none
  | cons first rest =>
    have hlines : List.Forall₂ ImportLine (first :: rest) ((first :: rest).map Import.text) := by
      rw [List.forall₂_map_right_iff, List.forall₂_same]
      exact fun i _ => .intro
    exact .one hlines (inLines_intercalate (List.cons_ne_nil _ _))

/-! ## Classes -/

/-- The text of a class: its head, and below it the lines of its body, or `pass` if there are
none. -/
inductive ClassText (name base : String) : List String → String → Prop
  | empty : ClassText name base [] ("class " ++ name ++ "(" ++ base ++ "):\n" ++ "    pass")
  | filled {lines : List String} {text : String} (h : InLines lines text) :
      ClassText name base lines ("class " ++ name ++ "(" ++ base ++ "):\n" ++ text)

/-- The lines that a documentation text gives a body. -/
def docLines (doc : Option String) : List String := (doc.map (docstring · "    ")).toList

theorem classText_of_body (name base : String) (doc : Option String) (body : List String) :
    ClassText name base (docLines doc ++ body) (classText name base doc body) := by
  have hhead : ∀ line rest, String.intercalate "\n"
      (("class " ++ name ++ "(" ++ base ++ "):") :: line :: rest) =
        "class " ++ name ++ "(" ++ base ++ "):\n" ++ String.intercalate "\n" (line :: rest) := by
    intro line rest
    rw [String.intercalate_cons_cons]
    simp only [String.append_assoc]
    rfl
  have htext : classText name base doc body = String.intercalate "\n"
      (("class " ++ name ++ "(" ++ base ++ "):") ::
        if (docLines doc ++ body).isEmpty then ["    pass"] else docLines doc ++ body) := rfl
  rw [htext]
  cases docLines doc ++ body with
  | nil =>
    rw [List.isEmpty_nil, if_pos rfl, hhead, String.intercalate_singleton]
    exact .empty
  | cons line rest =>
    rw [List.isEmpty_cons, if_neg Bool.false_ne_true, hhead]
    exact .filled (inLines_intercalate (List.cons_ne_nil _ _))

/-- The line of a field: its name with its type hint, and what it is set to if anything. -/
inductive FieldLine (f : Field) : String → Prop
  | required (h : f.value = .required) : FieldLine f ("    " ++ f.name ++ ": " ++ f.hint.text)
  | default {value : Literal} (h : f.value = .default value) :
      FieldLine f ("    " ++ f.name ++ ": " ++ f.hint.text ++ " = " ++ value.text)
  | call {args : List Argument} (h : f.value = .call args) :
      FieldLine f ("    " ++ f.name ++ ": " ++ f.hint.text ++ " = Field(" ++
        String.intercalate ", " (args.map fun a => a.keyword ++ "=" ++ a.value.text) ++ ")")

theorem fieldLine_text (f : Field) : FieldLine f f.text := by
  unfold Field.text
  cases hvalue : f.value with
  | required => exact .required hvalue
  | default value => exact .default hvalue
  | call args => exact .call hvalue

/-- The line of a member of an enum class. -/
inductive MemberLine (m : MemberDef) : String → Prop
  | intro : MemberLine m ("    " ++ m.name ++ " = " ++ m.value.text)

/-! ## Statements -/

/-- The section of a statement: a class with a line for each member or field, or an assignment with
its documentation below. -/
inductive Section : Statement → String → Prop
  | enum {e : EnumDef} {lines : List String} {text : String}
      (hlines : List.Forall₂ MemberLine e.members lines)
      (h : ClassText e.name e.base.name (docLines e.doc ++ lines) text) : Section (.enum e) text
  | alias {a : AliasDef} (h : a.doc = none) : Section (.alias a) (a.name ++ " = " ++ a.value.text)
  | documented {a : AliasDef} {doc : String} (h : a.doc = some doc) :
      Section (.alias a) (a.name ++ " = " ++ a.value.text ++ "\n" ++ docstring doc "")
  | model {c : ClassDef} {lines : List String} {text : String}
      (hlines : List.Forall₂ FieldLine c.fields lines)
      (h : ClassText c.name c.base (docLines c.doc ++ lines) text) : Section (.model c) text

theorem section_text (s : Statement) : Section s s.text := by
  rcases s with e | a | c
  · refine .enum ?_ (classText_of_body e.name e.base.name e.doc (e.members.map MemberDef.text))
    rw [List.forall₂_map_right_iff, List.forall₂_same]
    exact fun m _ => .intro
  · change Section (.alias a) a.text
    unfold AliasDef.text
    cases hdoc : a.doc with
    | none => exact .alias hdoc
    | some doc => exact .documented hdoc
  · refine .model ?_ (classText_of_body c.name c.base c.doc (c.fields.map Field.text))
    rw [List.forall₂_map_right_iff, List.forall₂_same]
    exact fun f _ => fieldLine_text f

/-- A section that declares a name: it is a class of the name, or it assigns to the name. -/
inductive Declares (name : String) : String → Prop
  | ofClass (base body : String) :
      Declares name ("class " ++ name ++ "(" ++ base ++ "):\n" ++ body)
  | ofAssignment (value : String) : Declares name (name ++ " = " ++ value)

theorem ClassText.declares {name base text : String} {lines : List String}
    (h : ClassText name base lines text) : Declares name text := by
  cases h with
  | empty => exact .ofClass base _
  | filled => exact .ofClass base _

theorem Section.declares_alias {a : AliasDef} {text : String} (h : Section (.alias a) text) :
    Declares a.name text := by
  cases h with
  | «alias» => exact .ofAssignment _
  | @documented _ doc =>
    have hvalue : a.name ++ " = " ++ a.value.text ++ "\n" ++ docstring doc "" =
        a.name ++ " = " ++ (a.value.text ++ "\n" ++ docstring doc "") := by
      simp only [String.append_assoc]
    rw [hvalue]
    exact .ofAssignment _

/-! ## Modules -/

/-- The text of a module: a section for its imports, if it has any, then one for each statement, in
their order, with two blank lines between the sections. -/
inductive ModuleText (m : Module) : String → Prop
  | intro {head sections : List String} {text : String} (hhead : ImportSections m.imports head)
      (hsections : List.Forall₂ Section m.statements sections)
      (h : Separated "\n\n\n" "\n" (head ++ sections) text) : ModuleText m text

/-- A module that has statements is printed by the rules. -/
theorem moduleText_text {m : Module} (h : m.statements ≠ []) : ModuleText m m.text := by
  have hsome : importTexts m.imports ++ m.statements.map Statement.text ≠ [] := by
    simpa using fun _ => h
  refine .intro (importSections_importTexts m.imports) ?_ (separated_intercalate hsome)
  rw [List.forall₂_map_right_iff, List.forall₂_same]
  exact fun s _ => section_text s

end ApiEmit.Python
