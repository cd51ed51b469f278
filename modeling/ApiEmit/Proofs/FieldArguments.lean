/-
ApiEmit.Proofs.FieldArguments — which arguments a field is called with.

What a keyword is given stands in more places than one: at the property, at the scalar that it has
and at all that this restricts, or at the model that it has, and within one place the number of
items comes under the keyword of a length. All these are candidates in one order (`candidates`), and
a field has the first for each keyword. A default comes in front of them, and is no candidate.
-/
import ApiEmit.Proofs.ScalarChains
import ApiEmit.Proofs.WireNames
import Mathlib.Data.Option.Basic

namespace ApiEmit

namespace Python.Field

/-- The keyword of a default. -/
def defaultKeyword : String := "default"

/-- The default of a field: what it is set to, or what it is called with under the keyword. -/
def default? (f : Field) : Option Literal :=
  match f.value with
  | .required => none
  | .default value => some value
  | .call args => (args.find? (·.keyword == defaultKeyword)).map (·.value)

end Python.Field

namespace Pydantic

open Python (Argument Literal)
open Python.Field (aliasKeyword defaultKeyword)

variable {g : Graph} {p : Property} {type : Ty} {sources : List Constraints}

/-! ## Where constraints stand -/

/-- The constraints that come with a type, by the rules: those of the scalars from the type to its
root, those of a model, or none. -/
inductive TypeSources (g : Graph) : Ty → List Constraints → Prop
  | scalar {id : DeclId} {chain : List DeclId} {sources : List Constraints}
      (h : (g.scalar? id).isSome = true) (hchain : g.IsScalarChain id chain)
      (hsources : chain.map (fun s => (g.scalar? s).map (·.constraints)) = sources.map some) :
      TypeSources g (.ref id) sources
  | model {id : DeclId} {m : Model} (h : g.model? id = some m) :
      TypeSources g (.ref id) [m.constraints]
  | other {type : Ty} (h : ∀ id, type = .ref id → g.scalar? id = none ∧ g.model? id = none) :
      TypeSources g type []

/-- The literal of a count. -/
def countLiteral (n : Nat) : Literal := .number (.integer n)

/-- What some constraints say for each keyword, in order. Items are counted as lengths are. -/
def constraintRows (c : Constraints) : List (String × Option Literal) :=
  [("min_length", c.minLength.map countLiteral),
    ("max_length", c.maxLength.map countLiteral),
    ("pattern", c.pattern.map .str),
    ("ge", c.minValue.map .number),
    ("le", c.maxValue.map .number),
    ("gt", c.minValueExclusive.map .number),
    ("lt", c.maxValueExclusive.map .number),
    ("min_length", c.minItems.map countLiteral),
    ("max_length", c.maxItems.map countLiteral)]

/-- What is said about a property beside constraints: its description, and its own name where the
field has another. -/
def propertyRows (p : Property) : List (String × Option Literal) :=
  [("description", p.doc.map .str),
    ("alias", if Python.identifier p.name = p.name then none else some (.str p.name))]

/-- The arguments for what is said. -/
def given (rows : List (String × Option Literal)) : List Argument :=
  rows.filterMap fun row => row.2.map (⟨row.1, ·⟩)

/-- All that a field could be called with: the constraints of the property, then those that come
with its type, then what is said beside. -/
def candidates (p : Property) (sources : List Constraints) : List Argument :=
  given ((p.constraints :: sources).flatMap constraintRows ++ propertyRows p)

/-- The literal that a default stands for. A member of an enum stands for its value, and for none if
it is missing. -/
inductive StandsFor (g : Graph) : DefaultValue → Literal → Prop
  | string {s : String} : StandsFor g (.string s) (.str s)
  | number {n : Json.Number} : StandsFor g (.number n) (.number n)
  | boolean {b : Bool} : StandsFor g (.boolean b) (.bool b)
  | member {id : DeclId} {i : Nat} {e : EnumDecl} {m : EnumMember} (he : g.enum? id = some e)
      (hm : e.members[i]? = some m) : StandsFor g (.member id i) (enumLiteral m.effectiveValue)
  | missing {id : DeclId} {i : Nat} (h : (g.enum? id).bind (·.members[i]?) = none) :
      StandsFor g (.member id i) .none

/-! ## What the model does by these rules -/

theorem typeConstraints_of_scalar {id : DeclId} (h : (g.scalar? id).isSome = true) :
    (g.scalarChain id).map (fun s => (g.scalar? s).map (·.constraints)) =
      (typeConstraints g (.ref id)).map some := by
  obtain ⟨scalar, hscalar⟩ := Option.isSome_iff_exists.mp h
  have hall : ∀ c ∈ (g.scalarChain id).map (fun s => (g.scalar? s).map (·.constraints)),
      c.isSome = true := by
    intro c hc
    obtain ⟨s, hs, rfl⟩ := List.mem_map.mp hc
    rw [Option.isSome_map]
    exact (Graph.chainFrom_scalarChain g id).isSome_of_mem hs
  simp only [typeConstraints, Graph.scalar?_eq_some_iff.mp hscalar]
  rw [List.map_filterMap_some_eq_filter_map_isSome, List.filter_eq_self.mpr hall]

theorem typeSources_typeConstraints (g : Graph) (type : Ty) :
    TypeSources g type (typeConstraints g type) := by
  cases type with
  | ref id =>
    cases hd : g.declaration? id with
    | none =>
      have hnone : typeConstraints g (.ref id) = [] := by simp only [typeConstraints, hd]
      rw [hnone]
      refine .other fun other hother => ?_
      obtain rfl := TypeExpr.ref.inj hother
      simp [Graph.scalar?, Graph.model?, hd]
    | some d =>
      cases d with
      | scalar scalar =>
        have hsome : (g.scalar? id).isSome = true := by
          rw [Graph.scalar?_eq_some_iff.mpr hd, Option.isSome_some]
        exact .scalar hsome (Graph.isScalarChain_scalarChain g id)
          (typeConstraints_of_scalar hsome)
      | model m =>
        have hmodel : typeConstraints g (.ref id) = [m.constraints] := by
          simp only [typeConstraints, hd]
        rw [hmodel]
        exact .model (Graph.model?_eq_some_iff.mpr hd)
      | enum | union =>
        have hnone : typeConstraints g (.ref id) = [] := by simp only [typeConstraints, hd]
        rw [hnone]
        refine .other fun other hother => ?_
        obtain rfl := TypeExpr.ref.inj hother
        simp [Graph.scalar?, Graph.model?, hd]
  | _ => exact .other fun _ h => by cases h

/-- The rules leave one list. -/
theorem TypeSources.eq (h : TypeSources g type sources) : sources = typeConstraints g type := by
  cases h with
  | scalar h hchain hsources =>
    rw [hchain.unique (Graph.isScalarChain_scalarChain g _), typeConstraints_of_scalar h]
      at hsources
    exact (List.map_injective_iff.mpr (Option.some_injective _) hsources).symm
  | model h => simp only [typeConstraints, Graph.model?_eq_some_iff.mp h]
  | other h =>
    cases type with
    | ref id =>
      obtain ⟨hscalar, hmodel⟩ := h id rfl
      unfold typeConstraints
      cases hd : g.declaration? id with
      | none => simp [hd]
      | some d =>
        cases d with
        | scalar => simp [Graph.scalar?, hd] at hscalar
        | model => simp [Graph.model?, hd] at hmodel
        | enum | union => simp [hd]
    | _ => rfl

theorem given_nil : given [] = [] := rfl

theorem given_cons (keyword : String) (value : Option Literal)
    (rows : List (String × Option Literal)) :
    given ((keyword, value) :: rows) = (value.map (⟨keyword, ·⟩)).toList ++ given rows := by
  cases value <;> rfl

theorem given_append (rows rows' : List (String × Option Literal)) :
    given (rows ++ rows') = given rows ++ given rows' :=
  List.filterMap_append

theorem given_flatMap (rowsOf : Constraints → List (String × Option Literal))
    (cs : List Constraints) : given (cs.flatMap rowsOf) = cs.flatMap fun c => given (rowsOf c) :=
  List.filterMap_flatMap

theorem given_constraintRows (c : Constraints) :
    given (constraintRows c) = constraintArguments c := by
  have hcount : ∀ (keyword : String) (count : Option Nat),
      ((count.map countLiteral).map (⟨keyword, ·⟩)).toList = countArgument keyword count := by
    intro keyword count
    cases count <;> rfl
  simp only [constraintRows, given_cons, given_nil, hcount, constraintArguments, numberArgument,
    textArgument, List.append_assoc, List.append_nil]
  simp only [Option.map_map]
  rfl

theorem candidates_eq (g : Graph) (p : Property) : candidates p (typeConstraints g p.type) =
    propertyCandidates g p ++
      textArgument "alias" (if Python.identifier p.name = p.name then none else some p.name) := by
  simp only [candidates, given_append, given_flatMap, given_constraintRows, propertyCandidates,
    propertyRows, given_cons, textArgument, List.append_assoc]
  split <;> simp [given, Option.map_map, Function.comp_def]

/-! ## Keywords of candidates -/

/-- The keywords of all that a field could be called with. -/
def candidateKeywords : List String :=
  constraintKeywords ++ ["description", aliasKeyword]

theorem keyword_mem_of_mem_given {rows : List (String × Option Literal)} {a : Argument}
    (h : a ∈ given rows) : a.keyword ∈ rows.map (·.1) := by
  obtain ⟨row, hrow, hvalue⟩ := List.mem_filterMap.mp h
  obtain ⟨value, _, rfl⟩ := Option.map_eq_some_iff.mp hvalue
  exact List.mem_map_of_mem hrow

theorem keyword_mem_of_mem_candidates {a : Argument} (h : a ∈ candidates p sources) :
    a.keyword ∈ candidateKeywords := by
  obtain ⟨row, hrow, hkeyword⟩ := List.mem_map.mp (keyword_mem_of_mem_given h)
  rw [← hkeyword]
  rcases List.mem_append.mp hrow with hrow | hrow
  · obtain ⟨c, _, hrow⟩ := List.mem_flatMap.mp hrow
    have hmem : row.1 ∈ (constraintRows c).map (·.1) := List.mem_map_of_mem hrow
    have hsub : (constraintRows c).map (·.1) ⊆ constraintKeywords := by
      show ["min_length", "max_length", "pattern", "ge", "le", "gt", "lt", "min_length",
        "max_length"] ⊆ constraintKeywords
      decide
    exact List.mem_append_left _ (hsub hmem)
  · have hmem : row.1 ∈ (propertyRows p).map (·.1) := List.mem_map_of_mem hrow
    exact List.mem_append_right _ hmem

/-! ## What a field is called with -/

/-- A field is called just if there is a candidate. A default comes first, then the first candidate
for each keyword, in their order, and no keyword comes twice. It has a default just if its property
declares one or is optional: the declared one, or else none at all. -/
structure CalledWith (g : Graph) (p : Property) (candidates : List Argument) (f : Python.Field) :
    Prop where
  call_iff : (∃ args, f.value = .call args) ↔ candidates ≠ []
  arguments : ∃ front, f.arguments = front ++ Keyed.firstOccurrences (·.keyword) candidates ∧
    (front = [] ∨ ∃ value, front = [⟨defaultKeyword, value⟩])
  nodup : (f.arguments.map (·.keyword)).Nodup
  default_none_iff : f.default? = none ↔ p.optional = false ∧ p.default = none
  default_declared : ∀ d, p.default = some d → ∃ value, StandsFor g d value ∧
    f.default? = some value
  default_optional : p.optional = true → p.default = none → f.default? = some .none

theorem fieldArguments_eq_firsts (g : Graph) (p : Property) : fieldArguments g p =
    Keyed.firsts (·.keyword) (candidates p (typeConstraints g p.type)) := by
  rw [candidates_eq]
  rfl

theorem fieldArguments_eq_nil_iff :
    fieldArguments g p = [] ↔ candidates p (typeConstraints g p.type) = [] := by
  rw [fieldArguments_eq_firsts, Keyed.firsts_eq_nil_iff]

theorem default_not_mem_fieldArguments :
    defaultKeyword ∉ (fieldArguments g p).map (·.keyword) := by
  rw [fieldArguments_eq_firsts, Keyed.mem_map_firsts_iff]
  intro h
  obtain ⟨a, ha, hkeyword⟩ := List.mem_map.mp h
  have hmem := keyword_mem_of_mem_candidates ha
  rw [hkeyword] at hmem
  exact absurd hmem (by decide)

theorem default?_field (g : Graph) (names : NameTable) (p : Property) :
    (field g names p).default? = fieldDefault? g p := by
  unfold Python.Field.default? field fieldValue
  by_cases hargs : fieldArguments g p = []
  · simp only [hargs, List.isEmpty_nil, if_true]
    cases fieldDefault? g p <;> rfl
  · simp only [List.isEmpty_iff, hargs, if_false]
    cases fieldDefault? g p with
    | some value => rfl
    | none =>
      have hnone : (fieldArguments g p).find? (·.keyword == defaultKeyword) = none := by
        rw [List.find?_eq_none]
        intro a ha hkeyword
        apply default_not_mem_fieldArguments (g := g) (p := p)
        rw [← beq_iff_eq.mp hkeyword]
        exact List.mem_map_of_mem ha
      simp only [Option.map_none, Option.toList_none, List.nil_append, hnone]

theorem standsFor_defaultLiteral (g : Graph) (d : DefaultValue) :
    StandsFor g d (defaultLiteral g d) := by
  cases d with
  | string => exact .string
  | number => exact .number
  | boolean => exact .boolean
  | member id i =>
    cases h : (g.enum? id).bind (·.members[i]?) with
    | none =>
      rw [defaultLiteral, h]
      exact .missing h
    | some m =>
      obtain ⟨e, he, hm⟩ := Option.bind_eq_some_iff.mp h
      rw [defaultLiteral, h]
      exact .member he hm

theorem calledWith_field (g : Graph) (names : NameTable) (p : Property) :
    CalledWith g p (candidates p (typeConstraints g p.type)) (field g names p) where
  call_iff := by
    rw [Ne, ← fieldArguments_eq_nil_iff]
    unfold field fieldValue
    by_cases hargs : fieldArguments g p = []
    · simp only [hargs, List.isEmpty_nil, if_true]
      cases fieldDefault? g p <;> simp
    · simp [hargs]
  arguments := by
    rw [arguments_field, ← Keyed.firsts_eq_firstOccurrences, ← fieldArguments_eq_firsts]
    split
    · rename_i hargs
      exact ⟨[], by rw [hargs, List.append_nil], .inl rfl⟩
    · refine ⟨_, rfl, ?_⟩
      cases fieldDefault? g p with
      | none => exact .inl rfl
      | some value => exact .inr ⟨value, rfl⟩
  nodup := by
    have hnodup : ((fieldArguments g p).map (·.keyword)).Nodup := by
      rw [fieldArguments_eq_firsts]
      exact Keyed.map_firsts_nodup _ _
    rw [arguments_field]
    split
    · exact List.nodup_nil
    · cases fieldDefault? g p with
      | none => simpa only [Option.map_none, Option.toList_none, List.nil_append] using hnodup
      | some value =>
        simp only [Option.map_some, Option.toList_some, List.singleton_append, List.map_cons]
        exact List.nodup_cons.mpr ⟨default_not_mem_fieldArguments, hnodup⟩
  default_none_iff := by
    rw [default?_field, fieldDefault?]
    cases p.default <;> cases p.optional <;> simp
  default_declared := by
    intro d hd
    refine ⟨defaultLiteral g d, standsFor_defaultLiteral g d, ?_⟩
    rw [default?_field, fieldDefault?, hd]
    rfl
  default_optional := by
    intro hoptional hnone
    rw [default?_field, fieldDefault?, hnone, hoptional]
    rfl

/-- **A field is called with the first of all candidates for each keyword**, from the constraints of
its property over those of the type to the alias, wherever a chain of scalars leads. -/
theorem arguments_precedence (g : Graph) (names : NameTable) (p : Property) :
    ∃ sources, (∀ other, TypeSources g p.type other ↔ other = sources) ∧
      CalledWith g p (candidates p sources) (field g names p) := by
  refine ⟨typeConstraints g p.type, fun other => ⟨TypeSources.eq, ?_⟩, calledWith_field g names p⟩
  rintro rfl
  exact typeSources_typeConstraints g p.type

end Pydantic

end ApiEmit
