/-
ApiEmit.Proofs.WireNames — the names that a class reads and writes.

A field is known to Python by an identifier and on the wire by its alias, or by the identifier when
it has none. The alias is put behind the arguments for constraints and for the description, of which
the first for a keyword is kept; none of them has its keyword (`alias_not_mem_propertyCandidates`),
so it is always kept, and a field with an alias is always a call (`fieldArguments_eq`).
-/
import ApiEmit.Proofs.Identifiers
import ApiEmit.Proofs.Keyed
import ApiEmit.Pydantic.Definition

namespace ApiEmit

namespace Python.Field

/-- The keyword of an alias. -/
def aliasKeyword : String := "alias"

/-- The arguments that a field is called with, none if it is no call. -/
def arguments (f : Field) : List Argument :=
  match f.value with
  | .call args => args
  | _ => []

/-- Whether a field has an alias. -/
def HasAlias (f : Field) : Prop := aliasKeyword ∈ f.arguments.map (·.keyword)

/-- The text of an alias. -/
def aliasText? (f : Field) : Option String :=
  (f.arguments.find? (·.keyword == aliasKeyword)).bind fun a =>
    match a.value with
    | .str text => some text
    | _ => none

/-- The name of a field on the wire: the text of its alias, or else its own name. -/
def wireName (f : Field) : String := f.aliasText?.getD f.name

end Python.Field

namespace Pydantic

open Python (Argument Literal)
open Python.Field (aliasKeyword)

variable {g : Graph} {p : Property}

/-! ## Keywords -/

/-- The keywords of constraints. -/
def constraintKeywords : List String :=
  ["min_length", "max_length", "pattern", "ge", "le", "gt", "lt"]

theorem keyword_of_mem_numberArgument {keyword : String} {value : Option Json.Number} {a : Argument}
    (h : a ∈ numberArgument keyword value) : a.keyword = keyword := by
  cases value with
  | none => cases h
  | some n => rw [List.mem_singleton.mp h]

theorem keyword_of_mem_textArgument {keyword : String} {value : Option String} {a : Argument}
    (h : a ∈ textArgument keyword value) : a.keyword = keyword := by
  cases value with
  | none => cases h
  | some s => rw [List.mem_singleton.mp h]

theorem keyword_mem_of_mem_constraintArguments {c : Constraints} {a : Argument}
    (h : a ∈ constraintArguments c) : a.keyword ∈ constraintKeywords := by
  simp only [constraintArguments, countArgument, List.mem_append] at h
  rcases h with (((((((h | h) | h) | h) | h) | h) | h) | h) | h
  case inl.inl.inl.inl.inl.inl.inr => rw [keyword_of_mem_textArgument h]; decide
  all_goals rw [keyword_of_mem_numberArgument h]; decide

/-- No argument for a constraint or for a description has the keyword of an alias. -/
theorem alias_not_mem_propertyCandidates :
    aliasKeyword ∉ (propertyCandidates g p).map (·.keyword) := by
  intro h
  obtain ⟨a, ha, hkeyword⟩ := List.mem_map.mp h
  rcases List.mem_append.mp ha with hc | hd
  · obtain ⟨c, _, hc⟩ := List.mem_flatMap.mp hc
    have hmem := keyword_mem_of_mem_constraintArguments hc
    rw [hkeyword] at hmem
    exact absurd hmem (by decide)
  · rw [keyword_of_mem_textArgument hd] at hkeyword
    exact absurd hkeyword (by decide)

/-! ## Arguments of a field -/

theorem alias_not_mem_propertyArguments :
    aliasKeyword ∉ (propertyArguments g p).map (·.keyword) := by
  rw [propertyArguments, Arguments.ofList, Keyed.mem_map_firsts_iff]
  exact alias_not_mem_propertyCandidates

/-- The alias of a property, if its name cannot be used as it is. -/
def aliasArgument (p : Property) : Arguments :=
  if Python.identifier p.name = p.name then [] else [⟨aliasKeyword, .str p.name⟩]

/-- The alias comes behind all other arguments, and is never in their way. -/
theorem fieldArguments_eq (g : Graph) (p : Property) :
    fieldArguments g p = propertyArguments g p ++ aliasArgument p := by
  unfold fieldArguments aliasArgument
  by_cases hname : Python.identifier p.name = p.name
  · simp [hname, textArgument, propertyArguments]
  · have hnew := alias_not_mem_propertyArguments (g := g) (p := p)
    have htext : textArgument "alias" (some p.name) = [⟨aliasKeyword, .str p.name⟩] := rfl
    rw [propertyArguments, Arguments.ofList] at hnew ⊢
    rw [if_neg hname, if_neg hname, htext, Arguments.ofList, Keyed.firsts_append_singleton,
      Keyed.add, if_neg hnew]

/-- Apart from a default, a field is called with its arguments. -/
theorem arguments_field (g : Graph) (names : NameTable) (p : Property) :
    (field g names p).arguments = if fieldArguments g p = [] then [] else
      ((fieldDefault? g p).map (⟨"default", ·⟩)).toList ++ fieldArguments g p := by
  unfold Python.Field.arguments field fieldValue
  by_cases hargs : fieldArguments g p = []
  · simp only [hargs, List.isEmpty_nil, if_true]
    cases fieldDefault? g p <;> rfl
  · simp only [List.isEmpty_iff, hargs, if_false]

/-- The alias among the arguments of a field is the one of its property. -/
theorem filter_alias_arguments (g : Graph) (names : NameTable) (p : Property) :
    (field g names p).arguments.filter (·.keyword == aliasKeyword) = aliasArgument p := by
  have hdefault : ∀ default : Option Literal,
      ((default.map (⟨"default", ·⟩ : Literal → Argument)).toList.filter
        (·.keyword == aliasKeyword)) = [] := by
    intro default
    cases default <;> rfl
  have hothers : (propertyArguments g p).filter (·.keyword == aliasKeyword) = [] := by
    rw [List.filter_eq_nil_iff]
    intro a ha hkeyword
    apply alias_not_mem_propertyArguments (g := g) (p := p)
    rw [← beq_iff_eq.mp hkeyword]
    exact List.mem_map_of_mem ha
  have halias : (aliasArgument p).filter (·.keyword == aliasKeyword) = aliasArgument p := by
    unfold aliasArgument
    split <;> rfl
  have hargs : (fieldArguments g p).filter (·.keyword == aliasKeyword) = aliasArgument p := by
    rw [fieldArguments_eq, List.filter_append, hothers, halias, List.nil_append]
  rw [arguments_field]
  split
  · rename_i hnone
    rw [hnone] at hargs
    exact hargs
  · rw [List.filter_append, hdefault, hargs, List.nil_append]

/-! ## Names on the wire -/

/-- A field stands for a property: it has an identifier for its name, an alias just if that is
another name, and on the wire the name of the property. -/
structure Carries (p : Property) (f : Python.Field) : Prop where
  identifier : Python.isIdentifier f.name = true
  alias_iff : f.HasAlias ↔ f.name ≠ p.name
  wireName : f.wireName = p.name

theorem hasAlias_field_iff {names : NameTable} :
    (field g names p).HasAlias ↔ (field g names p).name ≠ p.name := by
  have hname : (field g names p).name = Python.identifier p.name := rfl
  have hmem : (field g names p).HasAlias ↔ aliasArgument p ≠ [] := by
    rw [← filter_alias_arguments g names p, Ne, List.filter_eq_nil_iff, Python.Field.HasAlias]
    simp [List.mem_map]
  rw [hmem, hname, aliasArgument]
  split <;> simp [*]

theorem wireName_field {names : NameTable} : (field g names p).wireName = p.name := by
  have hname : (field g names p).name = Python.identifier p.name := rfl
  rw [Python.Field.wireName, Python.Field.aliasText?, ← List.head?_filter,
    filter_alias_arguments, aliasArgument, hname]
  split
  · assumption
  · rfl

theorem carries_field (g : Graph) (names : NameTable) (p : Property) :
    Carries p (field g names p) where
  identifier := Python.isIdentifier_identifier p.name
  alias_iff := hasAlias_field_iff
  wireName := wireName_field

/-- **A class has one field for each property, in their order**, and on the wire its fields have the
names of the properties, whatever Python calls them. -/
theorem wireNames_classDef (g : Graph) (names : NameTable) (name : String) (m : Model) :
    List.Forall₂ Carries m.properties (classDef g names name m).fields ∧
      (classDef g names name m).fields.map (·.wireName) = m.properties.map (·.name) := by
  have hfields : (classDef g names name m).fields = m.properties.map (field g names) := rfl
  constructor
  · rw [hfields, List.forall₂_map_right_iff, List.forall₂_same]
    exact fun p _ => carries_field g names p
  · rw [hfields, List.map_map]
    refine List.map_congr_left fun p _ => ?_
    rw [Function.comp_apply, wireName_field]

end Pydantic

end ApiEmit
