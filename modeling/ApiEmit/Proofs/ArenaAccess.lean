/-
ApiEmit.Proofs.ArenaAccess — what is asked of a well-formed arena has an answer.

A walk to the outside comes to an earlier namespace with each step, a walk down the tree takes as
many steps as there are children, and a walk along bases comes to each scalar once; so none of
them runs out of steps, and none meets an index that leads nowhere.
-/
import ApiEmit.Proofs.ArenaWellFormed
import Mathlib.Algebra.BigOperators.Fin

namespace ApiEmit.Arena

/-- An arena that answers every question about an entry that it has. -/
structure Accessible (a : Arena) : Prop where
  model : ∀ i node, a.type? i = some node → ∃ m, a.model? i = some m
  isLibraryType : ∀ i node, a.type? i = some node → ∃ b, a.isLibraryType? i = some b
  isStructural : ∀ i node, a.type? i = some node → ∃ b, a.isStructural? i = some b
  qualifiedName : ∀ i node, a.type? i = some node → ∃ name, a.qualifiedName? i = some name
  scalarChain : ∀ i node, a.type? i = some node → ∃ chain, a.scalarChain? i = some chain
  path : ∀ i ns, a.namespace? i = some ns → ∃ path, a.path? i = some path
  fullName : ∀ i ns, a.namespace? i = some ns → ∃ name, a.fullName? i = some name
  isReserved : ∀ i ns, a.namespace? i = some ns → ∃ b, a.isReserved? i = some b
  operationsIn : ∀ i ns, a.namespace? i = some ns → ∃ found, a.operationsIn? i = some found
  operationsWithin : ∀ i ns, a.namespace? i = some ns → ∃ found, a.operationsWithin? i = some found
  services : ∃ found, a.services? = some found

namespace WellFormed

variable {a : Arena} (h : a.WellFormed)

include h

/-! ## Places in the tree -/

/-- A walk to the outside ends, as each namespace stands behind the one around it. -/
theorem exists_enclosingFrom {steps : Nat} (seen : List NamespaceIndex) {i : NamespaceIndex}
    {ns : Namespace} (hns : a.namespace? i = some ns) (hsteps : i.position < steps) :
    ∃ around, a.enclosingFrom? steps seen i = some around := by
  induction steps generalizing seen i ns with
  | zero => cases hsteps
  | succ steps ih =>
    rw [enclosingFrom?]
    split
    · exact ⟨[], rfl⟩
    · rw [hns, Option.bind_eq_bind, Option.bind_some]
      cases hparent : ns.parent with
      | none => exact ⟨[ns], rfl⟩
      | some outer =>
        obtain ⟨ns', hns'⟩ := h.namespaces outer (.parent (List.mem_of_getElem? hns) hparent)
        have hlt := h.parent_lt i ns outer hns hparent
        obtain ⟨around, haround⟩ := ih (i :: seen) hns' (by omega)
        dsimp only
        rw [haround]
        exact ⟨ns :: around, rfl⟩

theorem exists_path {i : NamespaceIndex} {ns : Namespace} (hns : a.namespace? i = some ns) :
    ∃ path, a.path? i = some path := by
  have hlt : i.position < a.namespaces.length := (List.getElem?_eq_some_iff.mp hns).1
  obtain ⟨around, haround⟩ := h.exists_enclosingFrom [] hns (Nat.lt_succ_of_lt hlt)
  rw [path?, haround]
  exact ⟨_, rfl⟩

theorem exists_isReserved {i : NamespaceIndex} {ns : Namespace}
    (hns : a.namespace? i = some ns) : ∃ b, a.isReserved? i = some b := by
  obtain ⟨path, hpath⟩ := h.exists_path hns
  rw [isReserved?, hpath]
  exact ⟨_, rfl⟩

theorem exists_isLibraryType {i : TypeIndex} {node : Node} (hnode : a.type? i = some node) :
    ∃ b, a.isLibraryType? i = some b := by
  rw [isLibraryType?, hnode, Option.bind_eq_bind, Option.bind_some]
  cases hhome : node.home? with
  | none => exact ⟨false, rfl⟩
  | some home =>
    obtain ⟨ns, hns⟩ := h.namespaces home (.home (List.mem_of_getElem? hnode) hhome)
    exact h.exists_isReserved hns

theorem exists_isStructural {i : TypeIndex} {node : Node} (hnode : a.type? i = some node) :
    ∃ b, a.isStructural? i = some b := by
  rw [isStructural?, hnode, Option.bind_eq_bind, Option.bind_some]
  cases node with
  | model m =>
    dsimp only
    split
    · exact ⟨true, rfl⟩
    · exact h.exists_isLibraryType hnode
  | _ => exact ⟨false, rfl⟩

theorem exists_qualifiedName {i : TypeIndex} {node : Node} (hnode : a.type? i = some node) :
    ∃ name, a.qualifiedName? i = some name := by
  rw [qualifiedName?, hnode, Option.bind_eq_bind, Option.bind_some]
  cases hhome : node.home? with
  | none => exact ⟨_, rfl⟩
  | some home =>
    obtain ⟨ns, hns⟩ := h.namespaces home (.home (List.mem_of_getElem? hnode) hhome)
    obtain ⟨path, hpath⟩ := h.exists_path hns
    dsimp only
    rw [qualify?, fullName?, hpath]
    exact ⟨_, rfl⟩

end WellFormed

/-! ## Walks down the tree -/

/-- How many children there are of the namespaces that have not been seen. -/
def unseenChildren (a : Arena) (seen : List NamespaceIndex) : Nat :=
  ∑ k : Fin a.namespaces.length,
    if (⟨k.val⟩ : NamespaceIndex) ∈ seen then 0 else a.namespaces[k.val].children.length

theorem unseenChildren_nil (a : Arena) :
    a.unseenChildren [] = (a.namespaces.flatMap (·.children)).length := by
  unfold unseenChildren
  simp only [List.not_mem_nil, if_false, List.length_flatMap]
  exact Fin.sum_univ_fun_getElem a.namespaces (·.children.length)

/-- The children of a namespace that is seen for the first time are no longer among them. -/
theorem unseenChildren_cons {a : Arena} {seen : List NamespaceIndex} {i : NamespaceIndex}
    {ns : Namespace} (hns : a.namespace? i = some ns) (hnew : i ∉ seen) :
    a.unseenChildren seen = ns.children.length + a.unseenChildren (i :: seen) := by
  obtain ⟨hlt, hget⟩ := List.getElem?_eq_some_iff.mp hns
  unfold unseenChildren
  rw [← Finset.add_sum_erase _ _ (Finset.mem_univ (⟨i.position, hlt⟩ : Fin a.namespaces.length)),
    ← Finset.add_sum_erase _ _ (Finset.mem_univ (⟨i.position, hlt⟩ : Fin a.namespaces.length))]
  have hself : (⟨i.position⟩ : NamespaceIndex) = i := rfl
  have hothers : ∀ k ∈ Finset.univ.erase (⟨i.position, hlt⟩ : Fin a.namespaces.length),
      ((⟨k.val⟩ : NamespaceIndex) ∈ seen ↔ (⟨k.val⟩ : NamespaceIndex) ∈ i :: seen) := by
    intro k hk
    have hne : (⟨k.val⟩ : NamespaceIndex) ≠ i := by
      rintro rfl
      exact (Finset.mem_erase.mp hk).1 rfl
    simp [hne]
  rw [Finset.sum_congr rfl fun k hk => by rw [if_congr (hothers k hk) rfl rfl]]
  simp [hself, hnew, hget]

namespace WellFormed

variable {a : Arena} (h : a.WellFormed)

include h

/-- A walk from a stack of namespaces ends, as it takes one step for each of them and for each child
of one that it comes to. -/
theorem exists_walk {steps : Nat} (seen stack : List NamespaceIndex)
    (hstack : ∀ i ∈ stack, ∃ ns, a.namespace? i = some ns)
    (hsteps : stack.length + a.unseenChildren seen ≤ steps) :
    ∃ found, a.walk? steps seen stack = some found ∧
      ∀ entry ∈ found, a.namespace? entry.1 = some entry.2 := by
  induction steps generalizing seen stack with
  | zero =>
    obtain rfl := List.eq_nil_of_length_eq_zero (l := stack) (by omega)
    exact ⟨[], rfl, nofun⟩
  | succ steps ih =>
    cases stack with
    | nil => exact ⟨[], rfl, nofun⟩
    | cons i stack =>
      have hrest : ∀ j ∈ stack, ∃ ns, a.namespace? j = some ns := fun j hj =>
        hstack j (List.mem_cons_of_mem _ hj)
      rw [List.length_cons] at hsteps
      rw [walk?]
      split
      · exact ih seen stack hrest (by omega)
      · rename_i hseen
        rw [List.contains_iff_mem] at hseen
        obtain ⟨ns, hns⟩ := hstack i List.mem_cons_self
        have hchildren : ∀ j ∈ ns.children ++ stack, ∃ ns, a.namespace? j = some ns := by
          intro j hj
          rcases List.mem_append.mp hj with hj | hj
          · exact h.namespaces j (.child (List.mem_of_getElem? hns) hj)
          · exact hrest j hj
        rw [unseenChildren_cons hns hseen] at hsteps
        have hlength : (ns.children ++ stack).length + a.unseenChildren (i :: seen) ≤ steps := by
          rw [List.length_append]
          omega
        obtain ⟨found, hfound, hentries⟩ := ih (i :: seen) (ns.children ++ stack) hchildren hlength
        rw [hns, Option.bind_eq_bind, Option.bind_some, hfound]
        exact ⟨(i, ns) :: found, rfl, List.forall_mem_cons.mpr ⟨hns, hentries⟩⟩

theorem exists_below {i : NamespaceIndex} {ns : Namespace} (hns : a.namespace? i = some ns) :
    ∃ found, a.below? i = some found ∧ ∀ entry ∈ found, a.namespace? entry.1 = some entry.2 := by
  refine h.exists_walk [] [i] (List.forall_mem_singleton.mpr ⟨ns, hns⟩) ?_
  rw [unseenChildren_nil, List.length_singleton, Nat.add_comm]

theorem exists_operationsWithin {i : NamespaceIndex} {ns : Namespace}
    (hns : a.namespace? i = some ns) : ∃ found, a.operationsWithin? i = some found := by
  obtain ⟨found, hfound, _⟩ := h.exists_below hns
  rw [operationsWithin?, hfound]
  exact ⟨_, rfl⟩

theorem exists_services : ∃ found, a.services? = some found := by
  obtain ⟨ns, hns⟩ := h.namespaces a.global .global
  obtain ⟨found, hfound, hentries⟩ := h.exists_below hns
  rw [services?, hfound, Option.bind_eq_bind, Option.bind_some]
  have hservice : ∀ _ entry : NamespaceIndex × Namespace, a.namespace? entry.1 = some entry.2 →
      ∃ service, a.serviceAt? entry = some service ∧ True := by
    intro _ entry hentry
    obtain ⟨operations, hoperations⟩ := h.exists_operationsWithin hentry
    rw [serviceAt?, hoperations]
    cases entry.2.service with
    | none => exact ⟨none, rfl, trivial⟩
    | some mark => exact ⟨_, rfl, trivial⟩
  obtain ⟨services, hservices, _⟩ := Aligned.exists_mapM (List.forall₂_same.mpr hentries) hservice
  rw [hservices]
  exact ⟨_, rfl⟩

/-! ## Scalars -/

/-- A walk along bases ends, as it comes to each scalar once. -/
theorem exists_scalarChainFrom {steps : Nat} {seen : List TypeIndex} {i : TypeIndex} {node : Node}
    (hnode : a.type? i = some node) (hnodup : seen.Nodup)
    (hseen : ∀ j ∈ seen, j.position < a.types.length)
    (hsteps : a.types.length < steps + seen.length) :
    ∃ chain, a.scalarChainFrom? steps seen i = some chain := by
  induction steps generalizing seen i node with
  | zero =>
    have hpositions : (seen.map (·.position)).Nodup :=
      hnodup.map fun _ _ hij => TypeIndex.ext hij
    have hsub : seen.map (·.position) ⊆ List.range a.types.length := by
      intro k hk
      obtain ⟨j, hj, rfl⟩ := List.mem_map.mp hk
      exact List.mem_range.mpr (hseen j hj)
    have hle := (List.subperm_of_subset hpositions hsub).length_le
    rw [List.length_map, List.length_range] at hle
    omega
  | succ steps ih =>
    rw [scalarChainFrom?]
    split
    · exact ⟨[], rfl⟩
    · rename_i hnew
      rw [List.contains_iff_mem] at hnew
      rw [hnode, Option.bind_eq_bind, Option.bind_some]
      have hlt : i.position < a.types.length := (List.getElem?_eq_some_iff.mp hnode).1
      cases node with
      | scalar s =>
        cases hbase : s.base with
        | none =>
          dsimp only
          rw [hbase]
          exact ⟨[i], rfl⟩
        | some base =>
          obtain ⟨b, hb⟩ := h.base_scalar i s base hnode hbase
          obtain ⟨chain, hchain⟩ := ih hb (List.nodup_cons.mpr ⟨hnew, hnodup⟩)
            (List.forall_mem_cons.mpr ⟨hlt, hseen⟩) (by rw [List.length_cons]; omega)
          dsimp only
          rw [hbase]
          dsimp only
          rw [hchain]
          exact ⟨i :: chain, rfl⟩
      | _ => exact ⟨[], rfl⟩

/-- **A well-formed arena answers every question.** -/
theorem accessible : a.Accessible where
  model i node hnode := by
    rw [model?, hnode]
    exact ⟨_, rfl⟩
  isLibraryType i node := h.exists_isLibraryType
  isStructural i node := h.exists_isStructural
  qualifiedName i node := h.exists_qualifiedName
  scalarChain i node hnode :=
    h.exists_scalarChainFrom hnode List.nodup_nil nofun (Nat.lt_succ_self _)
  path i ns := h.exists_path
  fullName i ns hns := by
    obtain ⟨path, hpath⟩ := h.exists_path hns
    rw [fullName?, hpath]
    exact ⟨_, rfl⟩
  isReserved i ns := h.exists_isReserved
  operationsIn i ns hns := by
    rw [operationsIn?, hns]
    exact ⟨_, rfl⟩
  operationsWithin i ns := h.exists_operationsWithin
  services := h.exists_services

end WellFormed

end ApiEmit.Arena
