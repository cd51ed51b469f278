/-
ApiEmit.Proofs.Shadowing — when a module gives a new meaning to a name that it uses.

A module relies on the names that it imports and on those that its type hints have without import.
What it declares, and the fields of its classes, can be called the same, since no name is kept from
them. But renaming never leads there: all of these names are words without underscores, and an
identifier that is made of another name has one, be it for a character or for nothing, next to a
digit or a keyword, or between the steps of a path. So a name is shadowed just where the document
has it (`Pydantic.moduleOf_shadowsNamesakes`).
-/
import ApiEmit.Proofs.Imports

namespace ApiEmit

namespace Python

namespace Module

/-- The names of bases of enums. -/
def enumBaseNames : List String := ["IntEnum", "StrEnum", "Enum"]

/-- The names that classes are written with. -/
def classNames : List String := ["BaseModel", "Field"]

/-- The names of type hints that need no import. -/
def builtInNames : List String := ["str", "bool", "int", "float", "bytes"]

/-- The names that modules can rely on. -/
def outsideNames : List String :=
  typingNames ++ enumBaseNames ++ dateNames ++ classNames ++ builtInNames

/-- A module relies on what a name means outside of it: it imports the name, or has it in a type
hint as it is. -/
inductive ReliesOn (m : Module) : String → Prop
  | imported {source name : String} (h : m.Imports source name) : ReliesOn m name
  | builtIn {hint : TypeHint} {name : String} (hname : name ∈ builtInNames)
      (hhint : m.HasHint hint) (h : hint.Uses name) : ReliesOn m name

/-- A module gives a name a meaning: by a statement, or by a field in the body of a class. -/
inductive Gives (m : Module) : String → Prop
  | statement {s : Statement} (h : s ∈ m.statements) : Gives m (Pydantic.statementName s)
  | field {c : ClassDef} {f : Field} (hc : .model c ∈ m.statements) (hf : f ∈ c.fields) :
      Gives m f.name

/-- A module shadows a name: it gives another meaning to what it relies on. -/
def Shadows (m : Module) (name : String) : Prop := m.ReliesOn name ∧ m.Gives name

/-- All these names are words that identifiers are made of without a change. -/
theorem outsideNames_words : ∀ word ∈ outsideNames,
    isIdentifier word = true ∧ '_' ∉ word.toList := by
  decide

end Module

end Python

namespace Pydantic

open Python (Module)

variable {g : Graph} {named decls : List DeclId} {id : DeclId} {name word : String}

/-! ## What a module relies on -/

/-- What a module imports is among the names for its place. -/
theorem mem_outsideNames_of_needs {m : Module} {source : String} (h : m.Needs source name) :
    name ∈ Module.outsideNames := by
  unfold Module.outsideNames
  simp only [List.mem_append]
  cases h with
  | typing hname => exact .inl (.inl (.inl (.inl hname)))
  | @enum e =>
    have hbase : e.base.name ∈ Module.enumBaseNames := by cases e.base <;> decide
    exact .inl (.inl (.inl (.inr hbase)))
  | datetime hname => exact .inl (.inl (.inr hname))
  | baseModel => exact .inl (.inr (by decide))
  | field => exact .inl (.inr (by decide))

theorem mem_outsideNames_of_reliesOn
    (h : (moduleOf g (NameTable.ofDecls named) decls).ReliesOn name) :
    name ∈ Module.outsideNames := by
  cases h with
  | imported himports => exact mem_outsideNames_of_needs ((imports_iff rfl).mp himports)
  | builtIn hname => exact List.mem_append_right _ hname

/-! ## Names of declarations -/

namespace NameTable

/-- A declaration gets no path in front of its name: it is none of those that are named, it has its
name for itself among them, or there is no path. -/
def IsBare (named : List DeclId) (id : DeclId) : Prop :=
  id ∈ named → group named id.name = [id] ∨ id.home.path = []

/-- A name with a path in front has an underscore. -/
theorem underscore_mem_qualified {path : List String} (hpath : path ≠ []) (name : String) :
    '_' ∈ (String.intercalate "_" (path ++ [name])).toList := by
  obtain ⟨first, rest, rfl⟩ := List.exists_cons_of_ne_nil hpath
  obtain ⟨second, others, hrest⟩ := List.exists_cons_of_ne_nil
    (List.append_ne_nil_of_right_ne_nil rest (List.cons_ne_nil name []))
  rw [List.cons_append, hrest, String.toList_intercalate, List.map_cons, List.map_cons,
    List.intercalate_cons_cons]
  simp

/-- A declaration has a word without underscores for its name just if it is called so and gets no
path in front. -/
theorem nameOf_eq_iff (hword : Python.isIdentifier word = true) (hunderscore : '_' ∉ word.toList) :
    (ofDecls named).nameOf id = word ↔ id.name = word ∧ IsBare named id := by
  have hbare : Python.identifier id.name = word ↔ id.name = word :=
    Python.identifier_eq_iff_of_not_mem hword hunderscore
  by_cases hid : id ∈ NameTable.named named
  · obtain ⟨hmem, hname⟩ := mem_named_iff.mp hid
    rw [nameOf_of_mem_named hid]
    by_cases halone : group named id.name = [id]
    · rw [if_pos halone, hbare]
      exact (and_iff_left fun _ => .inl halone).symm
    · rw [if_neg halone, qualified, Python.identifier_eq_iff_of_not_mem hword hunderscore]
      by_cases hpath : id.home.path = []
      · rw [hpath, List.nil_append, String.intercalate_singleton]
        exact (and_iff_left fun _ => .inr hpath).symm
      · constructor
        · rintro rfl
          exact absurd (underscore_mem_qualified hpath id.name) hunderscore
        · rintro ⟨_, h⟩
          exact absurd (h hmem) (not_or.mpr ⟨halone, hpath⟩)
  · rw [nameOf_of_not_mem_named hid, hbare]
    refine (and_iff_left_of_imp fun hname hmem => ?_).symm
    -- the word is not empty, so a declaration of this name that is listed has an entry
    have hne : id.name ≠ "" := by
      rw [hname]
      rintro rfl
      exact absurd hword (by decide)
    exact absurd (mem_named_iff.mpr ⟨hmem, hne⟩) hid

end NameTable

/-! ## What a module gives -/

/-- Something in a module is called by a name in the document: a declaration that gets no path in
front, or a property of a model. -/
inductive Calls (g : Graph) (named decls : List DeclId) : String → Prop
  | declaration {id : DeclId} {d : Declaration} (hid : id ∈ decls)
      (hd : g.declaration? id = some d) (hkind : d.kind ≠ .scalar)
      (hbare : NameTable.IsBare named id) : Calls g named decls id.name
  | property {id : DeclId} {m : Model} {p : Property} (hid : id ∈ decls)
      (hm : g.model? id = some m) (hp : p ∈ m.properties) : Calls g named decls p.name

/-- All declarations but scalars have a statement. -/
theorem exists_statement?_iff (names : NameTable) :
    (∃ s, statement? g names id = some s) ↔ ∃ d, g.declaration? id = some d ∧ d.kind ≠ .scalar := by
  unfold statement?
  cases g.declaration? id with
  | none => simp
  | some d => cases d <;> simp [Declaration.kind]

/-- The classes of a module are those of its models. -/
theorem model_mem_statements_iff {names : NameTable} {c : Python.ClassDef} :
    .model c ∈ statements g names decls ↔
      ∃ id ∈ decls, ∃ m, g.model? id = some m ∧ c = classDef g names (names.nameOf id) m := by
  rw [mem_statements_iff]
  refine exists_congr fun id => and_congr_right fun _ => ?_
  simp only [Graph.model?_eq_some_iff]
  unfold statement?
  cases g.declaration? id with
  | none => simp
  | some d => cases d <;> simp [eq_comm]

/-- A word without underscores gets a meaning in a module just where something is called so. -/
theorem gives_iff (hword : Python.isIdentifier word = true) (hunderscore : '_' ∉ word.toList) :
    (moduleOf g (NameTable.ofDecls named) decls).Gives word ↔ Calls g named decls word := by
  constructor
  · rintro (⟨hs⟩ | ⟨hc, hf⟩)
    · obtain ⟨id, hid, hs⟩ := mem_statements_iff.mp hs
      obtain ⟨d, hd, hkind⟩ := (exists_statement?_iff _).mp ⟨_, hs⟩
      obtain ⟨hname, hbare⟩ :=
        (NameTable.nameOf_eq_iff hword hunderscore).mp (statementName_eq hs).symm
      rw [← hname]
      exact .declaration hid hd hkind hbare
    · obtain ⟨id, hid, m, hm, rfl⟩ := model_mem_statements_iff.mp hc
      obtain ⟨p, hp, rfl⟩ := List.mem_map.mp hf
      have hname : p.name = Python.identifier p.name :=
        (Python.identifier_eq_iff_of_not_mem hword hunderscore).mp rfl
      rw [field, ← hname]
      exact .property hid hm hp
  · rintro (⟨hid, hd, hkind, hbare⟩ | ⟨hid, hm, hp⟩)
    · obtain ⟨s, hs⟩ := (exists_statement?_iff (NameTable.ofDecls named)).mpr ⟨_, hd, hkind⟩
      have hname := (NameTable.nameOf_eq_iff hword hunderscore).mpr ⟨rfl, hbare⟩
      rw [← hname, ← statementName_eq hs]
      exact .statement (mem_statements_iff.mpr ⟨_, hid, hs⟩)
    · rename_i id m p
      have hname : (field g (NameTable.ofDecls named) p).name = p.name :=
        Python.identifier_eq_self hword
      rw [← hname]
      exact .field (model_mem_statements_iff.mpr ⟨id, hid, m, hm, rfl⟩) (List.mem_map_of_mem hp)

/-! ## Shadowing -/

/-- What a module relies on are some few names, and it shadows those of them by which something in
it is called. -/
structure ShadowsNamesakes (g : Graph) (named decls : List DeclId) (m : Module) : Prop where
  mem_outsideNames : ∀ name, m.ReliesOn name → name ∈ Module.outsideNames
  shadows_iff : ∀ name, m.Shadows name ↔ m.ReliesOn name ∧ Calls g named decls name

/-- **A module shadows a name that it relies on just where the document has this name**: no name is
shadowed because of how names are made identifiers or told apart. -/
theorem moduleOf_shadowsNamesakes (g : Graph) (named decls : List DeclId) :
    ShadowsNamesakes g named decls (moduleOf g (NameTable.ofDecls named) decls) where
  mem_outsideNames _ := mem_outsideNames_of_reliesOn
  shadows_iff name := by
    refine and_congr_right fun hrelies => ?_
    obtain ⟨hword, hunderscore⟩ :=
      Module.outsideNames_words name (mem_outsideNames_of_reliesOn hrelies)
    exact gives_iff hword hunderscore

/-- A model that is called like the type hint of lists, and a property like that of dates. -/
def visits : Document :=
  { root :=
      { name := ""
        models := [
          ⟨"List", none, none, none, [⟨"items", .array (.ref "string"), false, none, none, {}⟩],
            {}⟩,
          ⟨"Visit", none, none, none, [⟨"datetime", .ref "utcDateTime", true, none, none, {}⟩],
            {}⟩] }
    diagnostics := [] }

/-- No name is kept from declarations and properties: a class can be called `List` in a module
that imports `List`, and a field `datetime` where `datetime` is imported. -/
theorem shadows_visits : ∃ g, Graph.ofDocument visits = .ok g ∧
    (moduleOf g (nameTable g) (declared g).all).Shadows "List" ∧
    (moduleOf g (nameTable g) (declared g).all).Shadows "datetime" := by
  have hg : Graph.ofDocument visits = .ok _ := rfl
  refine ⟨_, hg, ⟨.imported ⟨⟨"typing", ["Optional", "List"]⟩, by decide, rfl, by decide⟩, ?_⟩,
    ⟨.imported ⟨⟨"datetime", ["datetime"]⟩, by decide, rfl, by decide⟩, ?_⟩⟩
  · refine (gives_iff (by decide) (by decide)).mpr ?_
    exact @Calls.declaration _ _ _ ⟨.root, "List"⟩ _ (by decide) rfl (by decide) fun _ => .inr rfl
  · refine (gives_iff (by decide) (by decide)).mpr ?_
    exact @Calls.property _ _ _ ⟨.root, "Visit"⟩ _
      ⟨"datetime", .ref ⟨.library, "utcDateTime"⟩, true, none, none, {}⟩ (by decide) rfl
      List.mem_cons_self

end Pydantic

end ApiEmit
