/-
ApiEmit.Proofs.Paths — the path of a namespace and the names behind it.

A path holds the names on the way down that are not empty, so a namespace without a name has the
path of the one around it. Where neighbouring namespaces have different names, none of them empty,
a path leads to one namespace (`path_inj`).
-/
import ApiEmit.Proofs.Joined
import ApiEmit.Proofs.Scoping

namespace ApiEmit

namespace NamespaceId

theorem fullName_eq_join (id : NamespaceId) : id.fullName = Text.join '.' id.path :=
  rfl

theorem path_child (id : NamespaceId) (position : Nat) {name : String} (h : name ≠ "") :
    (id.child position name).path = id.path ++ [name] := by
  simp [path, child, h]

theorem ne_empty_of_mem_path {id : NamespaceId} {name : String} (h : name ∈ id.path) :
    name ≠ "" := by
  simpa using (List.mem_filter.mp h).2

end NamespaceId

namespace Document

variable {doc : Document} {id id' : NamespaceId} {scope scope' : List Document.Namespace}

/-- The steps of a path are names of namespaces on the way. -/
theorem exists_of_mem_path (hs : doc.Scope id scope) {name : String} (hname : name ∈ id.path) :
    name ≠ "" ∧ ∃ outer ns around, doc.Scope outer (ns :: around) ∧
      ∃ c ∈ ns.namespaces, c.name = name := by
  refine ⟨NamespaceId.ne_empty_of_mem_path hname, ?_⟩
  induction hs with
  | root => cases hname
  | @child outer ns c around i hscope hc ih =>
    by_cases hstep : c.name = name
    · exact ⟨outer, ns, around, hscope, c, List.mem_of_getElem? hc, hstep⟩
    · -- a name from further out
      have hin : name ∈ outer.path := by
        simp only [NamespaceId.path, NamespaceId.child, List.reverse_cons, List.map_append,
          List.filter_append, List.mem_append] at hname
        refine hname.resolve_right fun hlast => hstep ?_
        exact (List.mem_singleton.mp (List.mem_filter.mp hlast).1).symm
      exact ih hin

/-- The namespaces in one namespace have different names, none of them empty. -/
structure NamedApart (doc : Document) : Prop where
  distinct : ∀ id ns around, doc.Scope id (ns :: around) → (ns.namespaces.map (·.name)).Nodup
  named : ∀ id ns around, doc.Scope id (ns :: around) → ∀ c ∈ ns.namespaces, c.name ≠ ""

namespace NamedApart

/-- Only the global namespace has no path. -/
theorem path_eq_nil_iff (h : doc.NamedApart) (hs : doc.Scope id scope) :
    id.path = [] ↔ id = .root := by
  constructor
  · intro hpath
    cases hs with
    | root => rfl
    | child hscope hc =>
      rw [NamespaceId.path_child _ _ (h.named _ _ _ hscope _ (List.mem_of_getElem? hc))] at hpath
      exact absurd hpath (List.append_ne_nil_of_right_ne_nil _ (List.cons_ne_nil _ _))
  · rintro rfl
    rfl

/-- A path leads to one namespace. -/
theorem path_inj (h : doc.NamedApart) (hs : doc.Scope id scope) (hs' : doc.Scope id' scope')
    (hpath : id.path = id'.path) : id = id' ∧ scope = scope' := by
  induction hs generalizing id' scope' with
  | root =>
    obtain rfl := (h.path_eq_nil_iff hs').mp hpath.symm
    generalize hroot : NamespaceId.root = home at hs'
    cases hs' with
    | root => exact ⟨rfl, rfl⟩
    | child => cases hroot
  | @child id ns c around i hscope hc ih =>
    have hname := h.named _ _ _ hscope _ (List.mem_of_getElem? hc)
    cases hs' with
    | root =>
      rw [NamespaceId.path_child _ _ hname] at hpath
      exact absurd hpath (List.append_ne_nil_of_right_ne_nil _ (List.cons_ne_nil _ _))
    | @child id' ns' c' around' i' hscope' hc' =>
      have hname' := h.named _ _ _ hscope' _ (List.mem_of_getElem? hc')
      rw [NamespaceId.path_child _ _ hname, NamespaceId.path_child _ _ hname'] at hpath
      obtain ⟨hparent, hlast⟩ := List.append_inj' hpath rfl
      obtain ⟨rfl, heq⟩ := ih hscope' hparent
      cases heq
      -- of the namespaces in one namespace a name fixes the position
      have hposition : i = i' := by
        have hi : i < (ns.namespaces.map (·.name)).length := by
          simpa using (List.getElem?_eq_some_iff.mp hc).1
        apply (List.getElem?_inj hi (h.distinct _ _ _ hscope)).mp
        rw [List.getElem?_map, List.getElem?_map, hc, hc', Option.map_some, Option.map_some]
        exact congrArg some (List.singleton_inj.mp hlast)
      subst hposition
      obtain rfl := Option.some.inj (hc.symm.trans hc')
      exact ⟨rfl, rfl⟩

end NamedApart

end Document

end ApiEmit
