/-
ApiEmit.Proofs.Imports — a module imports what it uses, and nothing else.

What is imported is read off the declarations that are printed, one flag for each name. `Needs` says
when a module needs a name, by the rules, on the names that stand in its type hints at any depth; in
the text of a type hint these are the names outside of quotes, and what stands in quotes are
identifiers, so no quote comes between. A module imports just what it needs (`imports_iff`), each
name once, and one line for each place in a fixed order.
-/
import ApiEmit.Proofs.HintNames
import ApiEmit.Proofs.Identifiers
import ApiEmit.Proofs.Naming
import Mathlib.Data.List.Perm.Subperm

namespace ApiEmit

namespace Python

namespace Module

/-- The names of type hints that are imported as types. -/
def typingNames : List String := ["Optional", "Union", "List", "Dict", "Any"]

/-- The names of type hints that are imported as dates. -/
def dateNames : List String := ["datetime", "timedelta"]

/-- A module imports a name from a place. -/
def Imports (m : Module) (source name : String) : Prop :=
  ∃ i ∈ m.imports, i.source = source ∧ name ∈ i.names

/-- A type hint that a module has: of an alias, or of a field of a class. -/
inductive HasHint (m : Module) : TypeHint → Prop
  | ofAlias {a : AliasDef} (h : .alias a ∈ m.statements) : HasHint m a.value
  | ofField {c : ClassDef} {f : Field} (hc : .model c ∈ m.statements) (hf : f ∈ c.fields) :
      HasHint m f.hint

/-- A module needs a name from a place, by the rules. -/
inductive Needs (m : Module) : String → String → Prop
  | typing {hint : TypeHint} {name : String} (hname : name ∈ typingNames)
      (hhint : m.HasHint hint) (h : hint.Uses name) : Needs m "typing" name
  | enum {e : EnumDef} (h : .enum e ∈ m.statements) : Needs m "enum" e.base.name
  | datetime {hint : TypeHint} {name : String} (hname : name ∈ dateNames)
      (hhint : m.HasHint hint) (h : hint.Uses name) : Needs m "datetime" name
  | baseModel {c : ClassDef} (h : .model c ∈ m.statements) : Needs m "pydantic" "BaseModel"
  | field {c : ClassDef} {f : Field} {args : List Argument} (hc : .model c ∈ m.statements)
      (hf : f ∈ c.fields) (hcall : f.value = .call args) : Needs m "pydantic" "Field"

end Module

end Python

namespace Pydantic

open Python (TypeHint Import Module)

variable {g : Graph} {m : Module} {hint : TypeHint} {source name : String}

/-! ## Names that are needed -/

/-- What imports are read off are the type hints of a module with all that is within them. -/
theorem mem_statementHints_iff :
    hint ∈ m.statements.flatMap statementHints ↔ ∃ a, m.HasHint a ∧ hint ∈ a.walk := by
  rw [List.mem_flatMap]
  constructor
  · rintro ⟨e | a | c, hs, hhint⟩
    · cases hhint
    · exact ⟨a.value, .ofAlias hs, hhint⟩
    · obtain ⟨f, hf, hhint⟩ := List.mem_flatMap.mp hhint
      exact ⟨f.hint, .ofField hs hf, hhint⟩
  · rintro ⟨_, ⟨hs⟩ | ⟨hs, hf⟩, hhint⟩
    · exact ⟨_, hs, hhint⟩
    · exact ⟨_, hs, List.mem_flatMap.mpr ⟨_, hf, hhint⟩⟩

/-- A type hint needs an import for those of its own names that are imported. -/
theorem importedName?_eq_some_iff :
    importedName? hint = some name ↔
      name ∈ Module.typingNames ++ Module.dateNames ∧ name ∈ hint.ownNames := by
  cases hint with
  | primitive p =>
    cases p <;> simp [importedName?, TypeHint.ownNames, Module.typingNames, Module.dateNames,
      Python.Primitive.text] <;> grind
  | list | dict | union | optional | forward | none =>
    simp [importedName?, TypeHint.ownNames, Module.typingNames, Module.dateNames] <;> grind

/-- Those of some names that the type hints of a module need. -/
def hintNames (m : Module) (names : List String) : List String :=
  names.filter ((m.statements.flatMap statementHints).filterMap importedName?).contains

/-- The bases of the enums of a module. -/
def baseNames (m : Module) : List String :=
  Keyed.firsts id (m.statements.filterMap importedBase?)

/-- What the classes of a module need. -/
def classNames (m : Module) : List String :=
  if m.statements.any isModelClass then
    rootBase :: (if m.statements.any hasCall then ["Field"] else [])
  else []

/-- A name is needed for type hints just if some type hint uses it. -/
theorem mem_hintNames_iff {names : List String}
    (hnames : names ⊆ Module.typingNames ++ Module.dateNames) :
    name ∈ hintNames m names ↔ name ∈ names ∧ ∃ a, m.HasHint a ∧ a.Uses name := by
  simp only [hintNames, List.mem_filter, List.contains_iff_mem, List.mem_filterMap,
    mem_statementHints_iff, importedName?_eq_some_iff, TypeHint.uses_iff]
  constructor
  · rintro ⟨hname, b, ⟨a, ha, hb⟩, _, hown⟩
    exact ⟨hname, a, ha, b, hb, hown⟩
  · rintro ⟨hname, a, ha, b, hb, hown⟩
    exact ⟨hname, b, ⟨a, ha, hb⟩, hnames hname, hown⟩

theorem mem_baseNames_iff :
    name ∈ baseNames m ↔ ∃ e, .enum e ∈ m.statements ∧ e.base.name = name := by
  rw [baseNames, Keyed.mem_firsts_id_iff, List.mem_filterMap]
  constructor
  · rintro ⟨e | a | c, hs, hname⟩
    · exact ⟨e, hs, Option.some.inj hname⟩
    · cases hname
    · cases hname
  · rintro ⟨e, he, rfl⟩
    exact ⟨.enum e, he, rfl⟩

theorem mem_classNames_iff : name ∈ classNames m ↔
    (name = "BaseModel" ∧ ∃ c, .model c ∈ m.statements) ∨
      (name = "Field" ∧ ∃ c f args, .model c ∈ m.statements ∧ f ∈ c.fields ∧
        f.value = .call args) := by
  have hclass : m.statements.any isModelClass = true ↔ ∃ c, .model c ∈ m.statements := by
    rw [List.any_eq_true]
    constructor
    · rintro ⟨e | a | c, hs, h⟩
      · cases h
      · cases h
      · exact ⟨c, hs⟩
    · rintro ⟨c, hc⟩
      exact ⟨_, hc, rfl⟩
  have hcall : m.statements.any hasCall = true ↔ ∃ c f args, .model c ∈ m.statements ∧
      f ∈ c.fields ∧ f.value = .call args := by
    rw [List.any_eq_true]
    constructor
    · rintro ⟨e | a | c, hs, h⟩
      · cases h
      · cases h
      · obtain ⟨f, hf, h⟩ := List.any_eq_true.mp h
        unfold isCall at h
        split at h
        · rename_i args hvalue
          exact ⟨c, f, args, hs, hf, hvalue⟩
        · cases h
    · rintro ⟨c, f, args, hc, hf, hvalue⟩
      exact ⟨_, hc, List.any_eq_true.mpr ⟨f, hf, by simp [isCall, hvalue]⟩⟩
  have hmodel : m.statements.any hasCall = true → m.statements.any isModelClass = true := by
    rw [hclass, hcall]
    rintro ⟨c, _, _, hc, _⟩
    exact ⟨c, hc⟩
  rw [← hclass, ← hcall, classNames]
  split_ifs with hmodels hcalls
  · simp [hmodels, hcalls, rootBase]
  · simp [hmodels, hcalls, rootBase]
  · simp [hmodels, mt hmodel hmodels]

/-! ## Lines of imports -/

/-- What is imported from one place. -/
theorem mem_importOf_iff {place : String} {names : List String} :
    (∃ i ∈ importOf place names, i.source = source ∧ name ∈ i.names) ↔
      source = place ∧ name ∈ names := by
  unfold importOf
  split
  · rename_i hnone
    simp [List.isEmpty_iff.mp hnone]
  · simp [eq_comm]

theorem flatMap_importOf (place : String) (names : List String) :
    (importOf place names).flatMap (·.names) = names := by
  unfold importOf
  split
  · rename_i hnone
    exact (List.isEmpty_iff.mp hnone).symm
  · exact List.append_nil names

theorem map_source_importOf (place : String) (names : List String) :
    ((importOf place names).map (·.source)).Sublist [place] := by
  unfold importOf
  split
  · exact List.nil_sublist _
  · exact List.Sublist.refl _

theorem names_ne_nil_of_mem_importOf {place : String} {names : List String} {i : Import}
    (h : i ∈ importOf place names) : i.names ≠ [] := by
  unfold importOf at h
  split at h
  · cases h
  · rename_i hsome
    rw [List.mem_singleton.mp h]
    simpa using hsome

theorem importsOf_eq (m : Module) : importsOf m.statements =
    importOf "typing" (hintNames m Module.typingNames) ++ importOf "enum" (baseNames m) ++
      importOf "datetime" (hintNames m Module.dateNames) ++ importOf "pydantic" (classNames m) :=
  rfl

/-- **What a module imports is what it needs.** -/
theorem imports_iff (hm : m.imports = importsOf m.statements) :
    m.Imports source name ↔ m.Needs source name := by
  have hplaces : m.Imports source name ↔
      (source = "typing" ∧ name ∈ hintNames m Module.typingNames) ∨
      (source = "enum" ∧ name ∈ baseNames m) ∨
      (source = "datetime" ∧ name ∈ hintNames m Module.dateNames) ∨
      (source = "pydantic" ∧ name ∈ classNames m) := by
    simp only [Module.Imports, hm, importsOf_eq, List.mem_append, or_and_right, exists_or,
      mem_importOf_iff, or_assoc]
  rw [hplaces, mem_hintNames_iff (List.subset_append_left _ _),
    mem_hintNames_iff (List.subset_append_right _ _), mem_baseNames_iff, mem_classNames_iff]
  constructor
  · rintro (⟨rfl, hname, a, ha, huses⟩ | ⟨rfl, e, he, rfl⟩ | ⟨rfl, hname, a, ha, huses⟩ |
      ⟨rfl, ⟨rfl, c, hc⟩ | ⟨rfl, c, f, args, hc, hf, hcall⟩⟩)
    · exact .typing hname ha huses
    · exact .enum he
    · exact .datetime hname ha huses
    · exact .baseModel hc
    · exact .field hc hf hcall
  · rintro (⟨hname, ha, huses⟩ | he | ⟨hname, ha, huses⟩ | hc | ⟨hc, hf, hcall⟩)
    · exact .inl ⟨rfl, hname, _, ha, huses⟩
    · exact .inr (.inl ⟨rfl, _, he, rfl⟩)
    · exact .inr (.inr (.inl ⟨rfl, hname, _, ha, huses⟩))
    · exact .inr (.inr (.inr ⟨rfl, .inl ⟨rfl, _, hc⟩⟩))
    · exact .inr (.inr (.inr ⟨rfl, .inr ⟨rfl, _, _, _, hc, hf, hcall⟩⟩))

/-- No name is imported twice: those of different places are different, and those of one place are
kept once. -/
theorem nodup_flatMap_names (m : Module) :
    ((importsOf m.statements).flatMap (·.names)).Nodup := by
  have hhints : ∀ names, (hintNames m names).Subperm names := fun _ => List.filter_sublist.subperm
  have hbases : (baseNames m).Subperm ["IntEnum", "StrEnum", "Enum"] := by
    apply (Keyed.firsts_id_nodup _).subperm
    intro name hname
    obtain ⟨e, _, rfl⟩ := mem_baseNames_iff.mp hname
    cases e.base <;> decide
  have hclasses : (classNames m).Subperm ["BaseModel", "Field"] := by
    unfold classNames
    split_ifs
    · exact List.Subperm.refl _
    · exact (List.sublist_append_left ["BaseModel"] ["Field"]).subperm
    · exact List.nil_subperm
  simp only [importsOf_eq, List.flatMap_append, flatMap_importOf]
  obtain ⟨names, hperm, hsub⟩ := (((hhints Module.typingNames).append hbases).append
    (hhints Module.dateNames)).append hclasses
  have hnodup : names.Nodup := List.Nodup.sublist hsub (by decide)
  exact hperm.nodup_iff.mp hnodup

theorem sublist_map_source (m : Module) : ((importsOf m.statements).map (·.source)).Sublist
    ["typing", "enum", "datetime", "pydantic"] := by
  rw [importsOf_eq, List.map_append, List.map_append, List.map_append]
  exact (((map_source_importOf _ _).append (map_source_importOf _ _)).append
    (map_source_importOf _ _)).append (map_source_importOf _ _)

theorem names_ne_nil_of_mem (m : Module) : ∀ i ∈ importsOf m.statements, i.names ≠ [] := by
  intro i hi
  simp only [importsOf_eq, List.mem_append] at hi
  rcases hi with ((hi | hi) | hi) | hi <;> exact names_ne_nil_of_mem_importOf hi

/-! ## Names in quotes -/

/-- All names of a table are identifiers. -/
theorem isIdentifier_nameOf (named : List DeclId) (id : DeclId) :
    Python.isIdentifier ((NameTable.ofDecls named).nameOf id) = true := by
  by_cases hid : id ∈ NameTable.named named
  · rw [NameTable.nameOf_of_mem_named hid]
    split
    · exact Python.isIdentifier_identifier _
    · exact Python.isIdentifier_identifier _
  · rw [NameTable.nameOf_of_not_mem_named hid]
    exact Python.isIdentifier_identifier _

theorem quote_not_mem_of_isIdentifier (h : Python.isIdentifier name = true) :
    '"' ∉ name.toList := by
  intro hmem
  have hchars := (Python.isIdentifier_iff.mp h).1
  cases hname : name.toList with
  | nil => simp [hname] at hmem
  | cons c rest =>
    rw [hname] at hchars hmem
    rcases List.mem_cons.mp hmem with rfl | hmem
    · exact absurd hchars.1 (by decide)
    · exact absurd (hchars.2 _ hmem) (by decide)

/-- What type hints refer to are names of declarations. -/
theorem exists_nameOf {names : NameTable} {decls : List DeclId}
    (h : TypeHint.forward name ∈ (statements g names decls).flatMap statementHints) :
    ∃ target, names.nameOf target = name := by
  obtain ⟨s, hs, hhint⟩ := List.mem_flatMap.mp h
  obtain ⟨id, _, hs⟩ := mem_statements_iff.mp hs
  obtain ⟨target, _, hname⟩ := mentions_of_refersTo hs (.hint hhint)
  exact ⟨target, hname⟩

theorem quotable_of_hasHint {named decls : List DeclId}
    (h : (moduleOf g (NameTable.ofDecls named) decls).HasHint hint) : Python.Quotable hint := by
  intro name hname
  obtain ⟨target, rfl⟩ := exists_nameOf (mem_statementHints_iff.mpr ⟨hint, h, hname⟩)
  exact quote_not_mem_of_isIdentifier (isIdentifier_nameOf named target)

/-! ## Imports of a module -/

/-- A module imports what it needs, each name once, in lines that all have names and stand in the
order of their places; and what a type hint uses are the names in its text outside of quotes. -/
structure ImportsNeeded (m : Module) : Prop where
  imports_iff : ∀ source name, m.Imports source name ↔ m.Needs source name
  nodup : (m.imports.flatMap (·.names)).Nodup
  names_ne_nil : ∀ i ∈ m.imports, i.names ≠ []
  order : (m.imports.map (·.source)).Sublist ["typing", "enum", "datetime", "pydantic"]
  printed_iff : ∀ hint, m.HasHint hint → ∀ name,
    name ∈ Python.bareNames hint.text.toList ↔ hint.Uses name

/-- **A module of any declarations imports just what it needs.** -/
theorem importsNeeded_moduleOf (g : Graph) (named decls : List DeclId) :
    ImportsNeeded (moduleOf g (NameTable.ofDecls named) decls) := by
  have hm : (moduleOf g (NameTable.ofDecls named) decls).imports =
      importsOf (moduleOf g (NameTable.ofDecls named) decls).statements := rfl
  have hquotable : ∀ hint, (moduleOf g (NameTable.ofDecls named) decls).HasHint hint →
      Python.Quotable hint := fun _ => quotable_of_hasHint
  generalize moduleOf g (NameTable.ofDecls named) decls = m at hm hquotable
  constructor
  · exact fun _ _ => imports_iff hm
  · rw [hm]
    exact nodup_flatMap_names m
  · rw [hm]
    exact names_ne_nil_of_mem m
  · rw [hm]
    exact sublist_map_source m
  · exact fun hint hhint _ => Python.mem_bareNames_text_iff (hquotable hint hhint)

end Pydantic

end ApiEmit
