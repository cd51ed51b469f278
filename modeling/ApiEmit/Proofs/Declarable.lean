/-
ApiEmit.Proofs.Declarable — what counts as a declaration of its own.

Three places ask whether a type is a declaration of its own: the collection of what is written
out, the marking of what operations reach, and the type hints, which refer to such a type by name.
The first two ask the same. Type hints ask the same of a model, but of an enum they ask whether it
has a name where the others ask whether it is reserved. So they differ about an enum that is one
of both: one that lacks a name is written out and never referred to, and one that is reserved is
referred to and never written out.
-/
import ApiEmit.Proofs.References

namespace ApiEmit

namespace Graph

variable {g : Graph} {id : DeclId}

/-! ## What can be written out -/

/-- Only an enum or a union can be written out without a name. -/
theorem enum_or_union_of_name_eq_empty (h : g.isDeclarable id = true) (hname : id.name = "") :
    (∃ e, g.enum? id = some e) ∨ ∃ u, g.union? id = some u := by
  obtain ⟨_, d, hd, hkind⟩ := exists_of_isDeclarable h
  cases d with
  | model m =>
    have hm := model?_eq_some_iff.mpr hd
    rw [isDeclarable_eq_of_model hm, isStructural_eq_of_model hm, hname] at h
    cases h
  | enum e => exact .inl ⟨e, enum?_eq_some_iff.mpr hd⟩
  | union u => exact .inr ⟨u, union?_eq_some_iff.mpr hd⟩
  | scalar => exact absurd rfl hkind

/-- Marking a type gives its role to those of the declarations it comes to that can be written
out. -/
theorem hasRole_mark_iff_isDeclarable {usage : UsageMap} {t : Ty} {role : Role}
    (hid : id ∈ g.reach t) :
    (usage.mark g (t, role)).HasRole id role ↔
      usage.HasRole id role ∨ g.isDeclarable id = true := by
  rw [UsageMap.hasRole_mark_iff, isTagged_eq_isDeclarable]
  simp only [hid, true_and, and_true]

end Graph

namespace Pydantic

variable {g : Graph} {names : NameTable} {refs : References} {id : DeclId}

/-! ## What is referred to by name -/

/-- The type hint of a type is a reference to a declaration. -/
def ReferredByName (g : Graph) (names : NameTable) (refs : References) (t : Ty) : Prop :=
  ∃ name, (annotate g names t refs).1 = .forward name

theorem annotate_of_model {m : Model} (hm : g.model? id = some m)
    (hmap : g.mapValue? (.ref id) = none) :
    annotate g names (.ref id) refs =
      if g.isStructural id then (.any, refs) else forwardReference names id refs := by
  simp only [annotate, annotate?, Graph.model?_eq_some_iff.mp hm, hmap, Option.getD_some]

theorem annotate_of_enum {e : EnumDecl} (he : g.enum? id = some e) :
    annotate g names (.ref id) refs =
      if id.name = "" then (.any, refs) else forwardReference names id refs := by
  simp only [annotate, annotate?, Graph.enum?_eq_some_iff.mp he, Option.getD_some]

theorem annotate_inline (properties : List (InlineProperty Ty)) :
    annotate g names (.model properties) refs = (.any, refs) := by
  simp only [annotate, annotate?, Option.getD_some]

/-- A choice between anything and a reference is a reference when it is not anything. -/
theorem exists_forward_iff {c : Prop} [Decidable c] :
    (∃ name, (if c then (.any, refs) else forwardReference names id refs).1 =
      Python.TypeHint.forward name) ↔ ¬ c := by
  by_cases hc : c
  · simp [hc, Python.TypeHint.any]
  · simp [hc, forwardReference]

/-- A model is referred to by name exactly when it can be written out. -/
theorem referredByName_model_iff {m : Model} (hm : g.model? id = some m)
    (hmap : g.mapValue? (.ref id) = none) :
    ReferredByName g names refs (.ref id) ↔ g.isDeclarable id = true := by
  rw [ReferredByName, annotate_of_model hm hmap, exists_forward_iff,
    Graph.isDeclarable_eq_of_model hm]
  simp

/-- An enum is referred to by name when it has one. -/
theorem referredByName_enum_iff {e : EnumDecl} (he : g.enum? id = some e) :
    ReferredByName g names refs (.ref id) ↔ id.name ≠ "" := by
  rw [ReferredByName, annotate_of_enum he, exists_forward_iff]

/-- An enum that is referred to by name can be written out, and the other way round, exactly when it
has a name and is not reserved, or neither. -/
theorem referredByName_enum_agrees_iff {e : EnumDecl} (he : g.enum? id = some e) :
    (ReferredByName g names refs (.ref id) ↔ g.isDeclarable id = true) ↔
      (id.name = "" ↔ id.isReserved = true) := by
  rw [referredByName_enum_iff he, Graph.isDeclarable_eq_of_enum he]
  cases id.isReserved <;> simp

/-! ## The notions together -/

/-- How far the three notions of a declaration of its own go together. -/
structure Notions (g : Graph) : Prop where
  /-- What can be written out is not reserved. -/
  unreserved : ∀ id, g.isDeclarable id = true → id.isReserved = false
  /-- It has a name, or is an enum or a union. -/
  named : ∀ id, g.isDeclarable id = true →
    id.name ≠ "" ∨ (∃ e, g.enum? id = some e) ∨ ∃ u, g.union? id = some u
  /-- What gets a role when marking comes to it is what can be written out. -/
  marked : ∀ usage t role id, id ∈ g.reach t →
    ((UsageMap.mark g usage (t, role)).HasRole id role ↔
      usage.HasRole id role ∨ g.isDeclarable id = true)
  /-- A model that is no map is referred to by name exactly when it can be written out. -/
  model : ∀ names refs id m, g.model? id = some m → g.mapValue? (.ref id) = none →
    (ReferredByName g names refs (.ref id) ↔ g.isDeclarable id = true)
  /-- An inline model, which is not declared, is not referred to by name. -/
  inline : ∀ names refs properties, ¬ ReferredByName g names refs (.model properties)
  /-- An enum is referred to by name when it has one, which is when it can be written out unless
  it lacks a name or is reserved, and not both. -/
  enum : ∀ names refs id e, g.enum? id = some e →
    (ReferredByName g names refs (.ref id) ↔ id.name ≠ "") ∧
      ((ReferredByName g names refs (.ref id) ↔ g.isDeclarable id = true) ↔
        (id.name = "" ↔ id.isReserved = true))

/-- **The three notions of a declaration agree, but for some enums and unions.** What can be written
out is what gets roles, it is not reserved, and every model among it has a name. Models are referred
to by name exactly when they can be written out. Enums are so unless they lack a name or are
reserved. -/
theorem notions_of_declaration (g : Graph) : Notions g where
  unreserved id h := (Graph.exists_of_isDeclarable h).1
  named id h := or_iff_not_imp_left.mpr fun hname =>
    Graph.enum_or_union_of_name_eq_empty h (not_not.mp hname)
  marked usage t role id hid := Graph.hasRole_mark_iff_isDeclarable hid
  model names refs id m hm hmap := referredByName_model_iff hm hmap
  inline names refs properties h := by
    obtain ⟨name, hname⟩ := h
    rw [annotate_inline] at hname
    cases hname
  enum names refs id e he := ⟨referredByName_enum_iff he, referredByName_enum_agrees_iff he⟩

/-- An enum without a name, and one that is reserved. -/
def switches : Document :=
  { root :=
      { name := ""
        enums := [⟨"", none, [⟨"on", none⟩]⟩]
        namespaces := [{ name := "TypeSpec", enums := [⟨"Kind", none, []⟩] }] }
    diagnostics := [] }

/-- What is written out can lack a name, and then nothing refers to it, while something that is
referred to by name is not written out. -/
theorem notions_differ_switches : ∃ g, Graph.ofDocument switches = .ok g ∧
    (∃ id, g.isDeclarable id = true ∧ id.name = "" ∧
      ∀ names refs, ¬ ReferredByName g names refs (.ref id)) ∧
    ∃ id, g.isDeclarable id = false ∧ ∀ names refs, ReferredByName g names refs (.ref id) := by
  let unnamed : DeclId := ⟨.root, ""⟩
  let reserved : DeclId := ⟨⟨[⟨1, "TypeSpec"⟩]⟩, "Kind"⟩
  obtain ⟨g, hg, hunnamed, hreserved⟩ : ∃ g, Graph.ofDocument switches = .ok g ∧
      g.enum? unnamed = some ⟨none, [⟨"on", none⟩]⟩ ∧ g.enum? reserved = some ⟨none, []⟩ :=
    ⟨_, rfl, rfl, rfl⟩
  refine ⟨g, hg, ⟨unnamed, ?_, rfl, fun names refs h => ?_⟩, reserved, ?_, fun names refs => ?_⟩
  · rw [Graph.isDeclarable_eq_of_enum hunnamed]
    rfl
  · exact (referredByName_enum_iff hunnamed).mp h rfl
  · rw [Graph.isDeclarable_eq_of_enum hreserved]
    decide
  · exact (referredByName_enum_iff hreserved).mpr (by decide)

end Pydantic

end ApiEmit
