/-
ApiEmit.Proofs.Declaration — looking declarations up.

A lookup by kind finds a declaration exactly when there is one and it is of the kind. What is
given roles and what can be written out are the same declarations.
-/
import ApiEmit.Proofs.Keyed
import ApiEmit.Usage.Classify

namespace ApiEmit.Graph

variable {g : Graph} {id : DeclId}

/-! ## By kind -/

theorem model?_eq_some_iff {m : Model} :
    g.model? id = some m ↔ g.declaration? id = some (.model m) := by
  unfold model?
  split <;> simp_all

theorem enum?_eq_some_iff {e : EnumDecl} :
    g.enum? id = some e ↔ g.declaration? id = some (.enum e) := by
  unfold enum?
  split <;> simp_all

theorem union?_eq_some_iff {u : UnionDecl} :
    g.union? id = some u ↔ g.declaration? id = some (.union u) := by
  unfold union?
  split <;> simp_all

theorem scalar?_eq_some_iff {s : Scalar} :
    g.scalar? id = some s ↔ g.declaration? id = some (.scalar s) := by
  unfold scalar?
  split <;> simp_all

/-! ## In the table -/

theorem mem_declarations_of_declaration? {d : Declaration} (h : g.declaration? id = some d) :
    (id, d) ∈ g.declarations :=
  Keyed.mem_of_lookup h

theorem exists_declaration?_of_mem {d : Declaration} (h : (id, d) ∈ g.declarations) :
    ∃ d', g.declaration? id = some d' := by
  rw [← Option.ne_none_iff_exists', declaration?, Ne, List.lookup_eq_none_iff]
  intro hnone
  have hne := hnone (id, d) h
  simp at hne

/-- One identity fewer is left when one that was left is taken. -/
theorem length_filter_not_mem_cons_lt {ids seen : List DeclId} (hid : id ∈ ids)
    (hnew : id ∉ seen) :
    (ids.filter (· ∉ id :: seen)).length < (ids.filter (· ∉ seen)).length := by
  have hleft : id ∈ ids.filter (· ∉ seen) := by simp [hid, hnew]
  have hsub : ids.filter (· ∉ id :: seen) = (ids.filter (· ∉ seen)).filter (· ≠ id) := by
    simp [List.filter_filter, not_or]
  rw [hsub]
  exact List.length_filter_lt_length_iff_exists.mpr ⟨id, hleft, by simp⟩

/-! ## What can be written out -/

theorem isDeclarable_eq_of_model {m : Model} (hm : g.model? id = some m) :
    g.isDeclarable id = !g.isStructural id := by
  unfold isDeclarable
  rw [model?_eq_some_iff.mp hm]

theorem isDeclarable_eq_of_enum {e : EnumDecl} (he : g.enum? id = some e) :
    g.isDeclarable id = !id.isReserved := by
  unfold isDeclarable
  rw [enum?_eq_some_iff.mp he]

theorem isStructural_eq_of_model {m : Model} (hm : g.model? id = some m) :
    g.isStructural id = (id.name == "" || id.isReserved) := by
  rw [isStructural, hm, Option.isSome_some, Bool.true_and]

/-- What is given roles is what can be written out. -/
theorem isTagged_eq_isDeclarable : g.isTagged id = g.isDeclarable id := by
  unfold isTagged isDeclarable isStructural
  cases hd : g.declaration? id with
  | none => rfl
  | some d =>
    cases d with
    | model m => simp [model?_eq_some_iff.mpr hd]
    | enum | union | scalar => rfl

end ApiEmit.Graph
