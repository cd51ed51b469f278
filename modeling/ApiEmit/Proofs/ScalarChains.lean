/-
ApiEmit.Proofs.ScalarChains — the scalars from one to its root.

A chain goes from a scalar to the one that it restricts, and ends where that is no scalar, where
there is none, or where it has been to it. It is taken in a number of steps, but never cut short by
it (`chainFrom_scalarChainFrom`). `IsScalarChain` says what a chain is without a word about steps,
and leaves one list only (`IsScalarChain.unique`).
-/
import ApiEmit.Proofs.Declaration
import ApiEmit.Proofs.Successors
import Mathlib.Data.List.Chain
import Mathlib.Data.List.Nodup

namespace ApiEmit.Graph

variable {g : Graph} {seen chain chain' : List DeclId} {id s b b' : DeclId}

/-! ## What a chain is -/

/-- A scalar restricts another. -/
def Restricts (g : Graph) (s b : DeclId) : Prop :=
  (g.scalar? s).bind (·.base) = some b ∧ (g.scalar? b).isSome = true

/-- The scalars from one to its root: they start with it if it is a scalar, each is followed by the
one it restricts, none comes twice, and none restricts a scalar that is missing. -/
structure IsScalarChain (g : Graph) (id : DeclId) (chain : List DeclId) : Prop where
  head : chain.head? = if (g.scalar? id).isSome then some id else none
  isChain : chain.IsChain (Restricts g)
  nodup : chain.Nodup
  closed : ∀ s ∈ chain, ∀ b, Restricts g s b → b ∈ chain

/-- A scalar restricts one scalar. -/
theorem Restricts.unique (h : Restricts g s b) (h' : Restricts g s b') : b = b' :=
  Option.some.inj (h.1.symm.trans h'.1)

theorem restricts_rightUnique (g : Graph) : Relator.RightUnique (Restricts g) :=
  fun _ _ _ => Restricts.unique

/-- A chain does not go on where another ends. -/
theorem IsScalarChain.eq_of_prefix (h : IsScalarChain g id chain) (h' : IsScalarChain g id chain')
    (hfront : chain <+: chain') : chain = chain' := by
  obtain ⟨rest, rfl⟩ := hfront
  cases rest with
  | nil => exact (List.append_nil chain).symm
  | cons b rest =>
    -- the last scalar of the first chain restricts what comes next in the second
    rcases List.eq_nil_or_concat' chain with rfl | ⟨front, s, rfl⟩
    · have hhead := h.head.trans h'.head.symm
      cases hhead
    · have hstep : Restricts g s b := by
        have hchain := h'.isChain
        rw [List.append_assoc, List.isChain_append] at hchain
        exact (List.isChain_cons_cons.mp hchain.2.1).1
      have hmem : b ∈ front ++ [s] :=
        h.closed s (List.mem_append_right _ List.mem_cons_self) b hstep
      exact absurd rfl ((List.nodup_append.mp h'.nodup).2.2 b hmem b List.mem_cons_self)

/-- There is one chain. -/
theorem IsScalarChain.unique (h : IsScalarChain g id chain) (h' : IsScalarChain g id chain') :
    chain = chain' := by
  rcases Successors.prefix_or_prefix (restricts_rightUnique g) h.isChain h'.isChain
    (h.head.trans h'.head.symm) with hfront | hfront
  · exact h.eq_of_prefix h' hfront
  · exact (h'.eq_of_prefix h hfront).symm

/-! ## How a chain is taken -/

/-- A chain that keeps off the scalars that it has been to, by the rules that end it or take it
on. -/
inductive ChainFrom (g : Graph) : List DeclId → DeclId → List DeclId → Prop
  | seen {seen : List DeclId} {id : DeclId} (h : id ∈ seen) : ChainFrom g seen id []
  | other {seen : List DeclId} {id : DeclId} (h : g.scalar? id = none) : ChainFrom g seen id []
  | root {seen : List DeclId} {id : DeclId} {scalar : Scalar} (hnew : id ∉ seen)
      (h : g.scalar? id = some scalar) (hbase : scalar.base = none) : ChainFrom g seen id [id]
  | base {seen rest : List DeclId} {id b : DeclId} {scalar : Scalar} (hnew : id ∉ seen)
      (h : g.scalar? id = some scalar) (hbase : scalar.base = some b)
      (hrest : ChainFrom g (id :: seen) b rest) : ChainFrom g seen id (id :: rest)

/-- The declared identities that a chain has not been to. -/
def unseen (g : Graph) (seen : List DeclId) : List DeclId :=
  (g.declarations.map (·.1)).filter (· ∉ seen)

theorem mem_declared_of_scalar? {scalar : Scalar} (h : g.scalar? id = some scalar) :
    id ∈ g.declarations.map (·.1) :=
  List.mem_map_of_mem (mem_declarations_of_declaration? (scalar?_eq_some_iff.mp h))

/-- As many steps as there are identities that a chain has not been to are enough. -/
theorem chainFrom_scalarChainFrom {steps : Nat} (hsteps : (unseen g seen).length ≤ steps) :
    ChainFrom g seen id (g.scalarChainFrom steps seen id) := by
  induction steps generalizing seen id with
  | zero =>
    rw [scalarChainFrom]
    by_cases hseen : id ∈ seen
    · exact .seen hseen
    · apply ChainFrom.other
      by_contra hsome
      obtain ⟨scalar, h⟩ := Option.ne_none_iff_exists'.mp hsome
      have hleft : id ∈ unseen g seen := by simp [unseen, hseen, mem_declared_of_scalar? h]
      have hpos := List.length_pos_of_mem hleft
      omega
  | succ steps ih =>
    rw [scalarChainFrom]
    by_cases hseen : id ∈ seen
    · simp only [List.contains_iff_mem.mpr hseen, if_true]
      exact .seen hseen
    · rw [if_neg (by simpa using hseen)]
      cases h : g.scalar? id with
      | none => exact .other h
      | some scalar =>
        have hless : (unseen g (id :: seen)).length < (unseen g seen).length :=
          length_filter_not_mem_cons_lt (mem_declared_of_scalar? h) hseen
        cases hbase : scalar.base with
        | none => simpa only [hbase] using ChainFrom.root hseen h hbase
        | some b =>
          have hrest : ChainFrom g (id :: seen) b _ := ih (by omega)
          simpa only [hbase] using ChainFrom.base hseen h hbase hrest

namespace ChainFrom

variable (h : ChainFrom g seen id chain)

include h

/-- A chain consists of scalars. -/
theorem isSome_of_mem (hs : s ∈ chain) : (g.scalar? s).isSome = true := by
  induction h with
  | seen | other => cases hs
  | root _ h _ => rw [List.mem_singleton.mp hs, h, Option.isSome_some]
  | base _ h _ _ ih =>
    rcases List.mem_cons.mp hs with rfl | hs
    · rw [h, Option.isSome_some]
    · exact ih hs

theorem head? (hnew : id ∉ seen) :
    chain.head? = if (g.scalar? id).isSome then some id else none := by
  cases h with
  | seen hseen => exact absurd hseen hnew
  | other h => simp [h]
  | root _ h | base _ h => simp [h]

theorem eq_of_head? (hs : chain.head? = some s) : s = id := by
  cases h with
  | seen | other => cases hs
  | root | base => exact (Option.some.inj hs).symm

theorem isChain : chain.IsChain (Restricts g) := by
  induction h with
  | seen | other => exact .nil
  | root => exact .singleton _
  | @base seen rest id b scalar hnew h hbase hrest ih =>
    refine List.isChain_cons.mpr ⟨fun s hs => ?_, ih⟩
    obtain rfl := hrest.eq_of_head? hs
    exact ⟨by rw [h, Option.bind_some, hbase], hrest.isSome_of_mem (List.mem_of_head? hs)⟩

theorem not_mem_of_mem (hs : s ∈ chain) : s ∉ seen := by
  induction h with
  | seen | other => cases hs
  | root hnew => rwa [List.mem_singleton.mp hs]
  | base hnew _ _ _ ih =>
    rcases List.mem_cons.mp hs with rfl | hs
    · exact hnew
    · exact fun hseen => ih hs (List.mem_cons_of_mem _ hseen)

theorem nodup : chain.Nodup := by
  induction h with
  | seen | other => exact List.nodup_nil
  | root => exact List.nodup_singleton _
  | base _ _ _ hrest ih =>
    exact List.nodup_cons.mpr ⟨fun hmem => hrest.not_mem_of_mem hmem List.mem_cons_self, ih⟩

/-- What a scalar of a chain restricts comes in the chain or has been visited before. -/
theorem mem_or_mem (hs : s ∈ chain) (hb : Restricts g s b) : b ∈ seen ∨ b ∈ chain := by
  induction h with
  | seen | other => cases hs
  | root _ h hbase =>
    rw [List.mem_singleton.mp hs, Restricts, h, Option.bind_some, hbase] at hb
    cases hb.1
  | @base seen rest id next scalar hnew h hbase hrest ih =>
    rcases List.mem_cons.mp hs with rfl | hs
    · obtain rfl : next = b := by simpa [Restricts, h, hbase] using hb.1
      cases hrest with
      | seen hseen =>
        rcases List.mem_cons.mp hseen with rfl | hseen
        · exact .inr List.mem_cons_self
        · exact .inl hseen
      | other hnone => simp [Restricts, hnone] at hb
      | root | base => exact .inr (List.mem_cons_of_mem _ List.mem_cons_self)
    · rcases ih hs with hseen | hmem
      · rcases List.mem_cons.mp hseen with rfl | hseen
        · exact .inr List.mem_cons_self
        · exact .inl hseen
      · exact .inr (List.mem_cons_of_mem _ hmem)

/-- A chain that starts at what a scalar restricts, or has been there, ends behind the scalar, so
keeping off the scalar leaves out nothing else. -/
theorem filter_ne {seen' : List DeclId} {scalar : Scalar} (hs : g.scalar? s = some scalar)
    (hbase : scalar.base = some b) (hb : b ∈ seen ∨ id = b)
    (hseen' : ∀ place, place ∈ seen' ↔ place = s ∨ place ∈ seen) :
    ChainFrom g seen' id (chain.filter (· ≠ s)) := by
  induction h generalizing seen' with
  | seen hseen => exact .seen ((hseen' _).mpr (.inr hseen))
  | other h => exact .other h
  | @root seen id _ hnew h hnone =>
    have hne : id ≠ s := by
      rintro rfl
      rw [Option.some.inj (h.symm.trans hs), hbase] at hnone
      cases hnone
    rw [List.filter_cons_of_pos (by simpa using hne)]
    exact .root (fun hmem => ((hseen' id).mp hmem).elim hne hnew) h hnone
  | @base seen rest id next _ hnew h hnext hrest ih =>
    by_cases hne : id = s
    · subst hne
      obtain rfl : next = b := by
        rw [Option.some.inj (h.symm.trans hs), hbase] at hnext
        exact (Option.some.inj hnext).symm
      have hseen : next ∈ id :: seen := hb.elim (List.mem_cons_of_mem _) fun h => h ▸ .head _
      have hend : rest = [] := by
        cases hrest with
        | seen | other => rfl
        | root hfresh | base hfresh => exact absurd hseen hfresh
      rw [hend]
      simpa using ChainFrom.seen (g := g) ((hseen' id).mpr (.inl rfl))
    · rw [List.filter_cons_of_pos (by simpa using hne)]
      refine .base (fun hmem => ((hseen' id).mp hmem).elim hne hnew) h hnext (ih ?_ ?_)
      · exact .inl (hb.elim (List.mem_cons_of_mem _) fun h => h ▸ .head _)
      · intro place
        rw [List.mem_cons, hseen', List.mem_cons]
        exact or_left_comm

end ChainFrom

/-- A chain that keeps off nothing is the chain of its scalar. -/
theorem ChainFrom.isScalarChain (h : ChainFrom g [] id chain) : IsScalarChain g id chain where
  head := h.head? List.not_mem_nil
  isChain := h.isChain
  nodup := h.nodup
  closed := fun _ hs _ hb => (h.mem_or_mem hs hb).resolve_left List.not_mem_nil

theorem chainFrom_scalarChain (g : Graph) (id : DeclId) : ChainFrom g [] id (g.scalarChain id) := by
  apply chainFrom_scalarChainFrom
  have hle : (unseen g []).length ≤ (g.declarations.map (·.1)).length := List.length_filter_le _ _
  rwa [List.length_map] at hle

/-- **The chain of a scalar is taken to its end**, and round a cycle once. -/
theorem isScalarChain_scalarChain (g : Graph) (id : DeclId) :
    IsScalarChain g id (g.scalarChain id) :=
  (chainFrom_scalarChain g id).isScalarChain

/-- The chain of a scalar is the scalar and then the chain of what it restricts, without the scalar
where that comes back to it. -/
theorem scalarChain_of_base {scalar : Scalar} (hs : g.scalar? s = some scalar)
    (hbase : scalar.base = some b) :
    g.scalarChain s = s :: (g.scalarChain b).filter (· ≠ s) := by
  have hrest : ChainFrom g [s] b ((g.scalarChain b).filter (· ≠ s)) :=
    (chainFrom_scalarChain g b).filter_ne hs hbase (.inr rfl) (by simp)
  exact (isScalarChain_scalarChain g s).unique
    (ChainFrom.base List.not_mem_nil hs hbase hrest).isScalarChain

end ApiEmit.Graph
