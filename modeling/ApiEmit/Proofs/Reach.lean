/-
ApiEmit.Proofs.Reach — the walk over a graph finds what types lead to, and it ends.

`Edge` says what leads where in one step, without any walk. `Walk` gives the walk by rules,
without any bound on its steps. That `reachFrom` has steps enough to follow the rules to their
end is a matter of counting nodes (`walk_reachFrom`), and that the rules find exactly what can be
reached is a matter of two invariants: all that is found is reached (`Walk.reaches`), and all that
is found is closed under edges (`Walk.covers`).
-/
import ApiEmit.Proofs.Declaration
import ApiEmit.Proofs.Parts

namespace ApiEmit.Graph

open TypeExpr

/-! ## What leads where -/

/-- One type leads to another in one step: containers and inline types to their parts, a declared
model to the types of its properties, its base and the type of its further values, and a declared
union to its variants unless it is reserved. -/
inductive Edge (g : Graph) : Ty → Ty → Prop
  | element (t : Ty) : Edge g (.array t) t
  | value (t : Ty) : Edge g (.record t) t
  | alternative {ts : List Ty} {t : Ty} (h : t ∈ ts) : Edge g (.union ts) t
  | member {ps : List (InlineProperty Ty)} {p : InlineProperty Ty} (h : p ∈ ps) :
      Edge g (.model ps) p.type
  | property {id : DeclId} {m : Model} {p : Property} (hm : g.model? id = some m)
      (h : p ∈ m.properties) : Edge g (.ref id) p.type
  | base {id b : DeclId} {m : Model} (hm : g.model? id = some m) (h : m.base = some b) :
      Edge g (.ref id) (.ref b)
  | indexer {id : DeclId} {m : Model} {t : Ty} (hm : g.model? id = some m)
      (h : m.indexer = some t) : Edge g (.ref id) t
  | variant {id : DeclId} {u : UnionDecl} {v : Variant} (hu : g.union? id = some u)
      (hr : id.isReserved = false) (h : v ∈ u.variants) : Edge g (.ref id) v.type

/-- One type leads to another in any number of steps. -/
def Reaches (g : Graph) : Ty → Ty → Prop :=
  Relation.ReflTransGen g.Edge

/-- The types that the walk takes up when it opens a declaration are those it has edges to. -/
theorem mem_partsOf_iff {g : Graph} {id : DeclId} {d : Declaration} {t : Ty}
    (hd : g.declaration? id = some d) : t ∈ partsOf id d ↔ g.Edge (.ref id) t := by
  constructor
  · intro h
    cases d with
    | model m =>
      have hm : g.model? id = some m := model?_eq_some_iff.mpr hd
      simp only [partsOf, Declaration.types, List.mem_append, List.mem_map, Option.mem_toList,
        Option.map_eq_some_iff] at h
      rcases h with (⟨p, hp, rfl⟩ | ⟨b, hb, rfl⟩) | ht
      · exact Edge.property hm hp
      · exact Edge.base hm hb
      · exact Edge.indexer hm ht
    | enum e => simp [partsOf, Declaration.types] at h
    | scalar s => simp [partsOf, Declaration.types] at h
    | union u =>
      have hu : g.union? id = some u := union?_eq_some_iff.mpr hd
      cases hr : id.isReserved with
      | true => simp [partsOf, hr] at h
      | false =>
        simp only [partsOf, hr, Declaration.types, Bool.false_eq_true, if_false,
          List.mem_map] at h
        obtain ⟨v, hv, rfl⟩ := h
        exact Edge.variant hu hr hv
  · intro h
    cases h with
    | property hm hp =>
      rw [model?_eq_some_iff.mp hm, Option.some.injEq] at hd
      subst hd
      exact List.mem_append_left _ (List.mem_append_left _ (List.mem_map_of_mem hp))
    | base hm hb =>
      rw [model?_eq_some_iff.mp hm, Option.some.injEq] at hd
      subst hd
      simp [partsOf, Declaration.types, hb]
    | indexer hm ht =>
      rw [model?_eq_some_iff.mp hm, Option.some.injEq] at hd
      subst hd
      simp [partsOf, Declaration.types, ht]
    | variant hu hr hv =>
      rw [union?_eq_some_iff.mp hu, Option.some.injEq] at hd
      subst hd
      simp only [partsOf, hr, Declaration.types, Bool.false_eq_true, if_false]
      exact List.mem_map_of_mem hv

/-- Only declarations have edges. -/
theorem Edge.declared {g : Graph} {id : DeclId} {t : Ty} (h : g.Edge (.ref id) t) :
    ∃ d, g.declaration? id = some d := by
  cases h with
  | property hm _ => exact ⟨_, model?_eq_some_iff.mp hm⟩
  | base hm _ => exact ⟨_, model?_eq_some_iff.mp hm⟩
  | indexer hm _ => exact ⟨_, model?_eq_some_iff.mp hm⟩
  | variant hu _ _ => exact ⟨_, union?_eq_some_iff.mp hu⟩

/-- A type other than a reference leads to its parts and to nothing else. -/
theorem edge_iff_mem_parts {g : Graph} {t t' : Ty} (ht : ∀ id, t ≠ .ref id) :
    g.Edge t t' ↔ t' ∈ t.parts := by
  constructor
  · intro h
    cases h with
    | element => simp
    | value => simp
    | alternative h => simpa using h
    | member h => exact List.mem_map_of_mem h
    | property | base | indexer | variant => exact absurd rfl (ht _)
  · intro h
    cases t with
    | ref id => exact absurd rfl (ht id)
    | array e =>
      rw [parts_array, List.mem_singleton] at h
      subst h
      exact Edge.element _
    | record e =>
      rw [parts_record, List.mem_singleton] at h
      subst h
      exact Edge.value _
    | union ts => exact Edge.alternative h
    | model ps =>
      rw [parts_model, List.mem_map] at h
      obtain ⟨p, hp, rfl⟩ := h
      exact Edge.member hp
    | intrinsic | string | number | boolean => cases h

theorem edge_of_mem_parts {g : Graph} {t t' : Ty} (h : t' ∈ t.parts) : g.Edge t t' := by
  apply (edge_iff_mem_parts _).mpr h
  rintro id rfl
  cases h

/-! ## The walk by rules -/

/-- The walk over some pending types, given the declarations already seen: a reference to one of
these is passed over, one to another opens it, and any other type is replaced by its parts. The
last index are the declarations that are found, in their order. -/
inductive Walk (g : Graph) : List DeclId → List Ty → List DeclId → Prop
  | done (seen : List DeclId) : Walk g seen [] []
  | again {seen : List DeclId} {id : DeclId} {pending : List Ty} {found : List DeclId}
      (hs : id ∈ seen) (rest : Walk g seen pending found) : Walk g seen (.ref id :: pending) found
  | missing {seen : List DeclId} {id : DeclId} {pending : List Ty} {found : List DeclId}
      (hs : id ∉ seen) (hd : g.declaration? id = none) (rest : Walk g seen pending found) :
      Walk g seen (.ref id :: pending) found
  | opened {seen : List DeclId} {id : DeclId} {d : Declaration} {pending : List Ty}
      {found : List DeclId} (hs : id ∉ seen) (hd : g.declaration? id = some d)
      (rest : Walk g (id :: seen) (partsOf id d ++ pending) found) :
      Walk g seen (.ref id :: pending) (id :: found)
  | inside {seen : List DeclId} {t : Ty} {pending : List Ty} {found : List DeclId}
      (ht : ∀ id, t ≠ .ref id) (rest : Walk g seen (t.parts ++ pending) found) :
      Walk g seen (t :: pending) found

namespace Walk

variable {g : Graph} {seen : List DeclId} {pending : List Ty} {found : List DeclId}

/-- The rules leave no choice. -/
theorem unique {found' : List DeclId} (h : Walk g seen pending found)
    (h' : Walk g seen pending found') : found = found' := by
  induction h generalizing found' with
  | done => cases h' with
    | done => rfl
  | again hs _ ih => cases h' with
    | again _ rest => exact ih rest
    | missing hs' _ _ => exact absurd hs hs'
    | opened hs' _ _ => exact absurd hs hs'
    | inside ht _ => exact absurd rfl (ht _)
  | missing hs hd _ ih => cases h' with
    | again hs' _ => exact absurd hs' hs
    | missing _ _ rest => exact ih rest
    | opened _ hd' _ => rw [hd] at hd'; cases hd'
    | inside ht _ => exact absurd rfl (ht _)
  | opened hs hd _ ih => cases h' with
    | again hs' _ => exact absurd hs' hs
    | missing _ hd' _ => rw [hd] at hd'; cases hd'
    | opened _ hd' rest =>
      rw [hd, Option.some.injEq] at hd'
      subst hd'
      rw [ih rest]
    | inside ht _ => exact absurd rfl (ht _)
  | inside ht _ ih => cases h' with
    | again | missing | opened => exact absurd rfl (ht _)
    | inside _ rest => exact ih rest

/-- All that is found is declared, and a pending type leads to it. -/
theorem reaches (h : Walk g seen pending found) :
    ∀ id ∈ found, (∃ d, g.declaration? id = some d) ∧ ∃ t ∈ pending, g.Reaches t (.ref id) := by
  -- what a successor of `t` leads to, `t` leads to as well
  have back : ∀ {t : Ty} {next pending : List Ty} {id : DeclId}, (∀ t' ∈ next, g.Edge t t') →
      (∃ t' ∈ next ++ pending, g.Reaches t' (.ref id)) →
      ∃ t' ∈ t :: pending, g.Reaches t' (.ref id) := by
    rintro t next pending id hedge ⟨t', ht', hreach⟩
    rcases List.mem_append.mp ht' with hnext | hrest
    · exact ⟨t, List.mem_cons_self, Relation.ReflTransGen.head (hedge t' hnext) hreach⟩
    · exact ⟨t', List.mem_cons_of_mem _ hrest, hreach⟩
  induction h with
  | done => intro id hid; cases hid
  | again _ _ ih | missing _ _ _ ih =>
    intro id hid
    obtain ⟨hdecl, t, ht, hreach⟩ := ih id hid
    exact ⟨hdecl, t, List.mem_cons_of_mem _ ht, hreach⟩
  | opened hs hd _ ih =>
    intro id hid
    rcases List.mem_cons.mp hid with rfl | hlater
    · exact ⟨⟨_, hd⟩, _, List.mem_cons_self, Relation.ReflTransGen.refl⟩
    · obtain ⟨hdecl, hreach⟩ := ih id hlater
      exact ⟨hdecl, back (fun t' ht' => (mem_partsOf_iff hd).mp ht') hreach⟩
  | inside ht _ ih =>
    intro id hid
    obtain ⟨hdecl, hreach⟩ := ih id hid
    exact ⟨hdecl, back (fun t' ht' => edge_of_mem_parts ht') hreach⟩

end Walk

/-! ## Closed under edges -/

/-- Every declaration that a type refers to, at any depth, is among some. -/
def Covers (g : Graph) (known : List DeclId) (t : Ty) : Prop :=
  ∀ id d, t.Contains (.ref id) → g.declaration? id = some d → id ∈ known

theorem covers_of_parts {g : Graph} {known : List DeclId} {t : Ty} (ht : ∀ id, t ≠ .ref id)
    (h : ∀ t' ∈ t.parts, g.Covers known t') : g.Covers known t := by
  intro id d hid hd
  rcases contains_iff.mp hid with heq | ⟨t', ht', hin⟩
  · exact absurd heq.symm (ht id)
  · exact h t' ht' id d hin hd

theorem covers_ref {g : Graph} {known : List DeclId} {id : DeclId}
    (h : ∀ d, g.declaration? id = some d → id ∈ known) : g.Covers known (.ref id) := by
  intro id' d hid hd
  rw [ref_contains_iff, TypeExpr.ref.injEq] at hid
  subst hid
  exact h d hd

/-- What was seen before the walk and what it finds covers the pending types and all that the
declarations found lead to. -/
theorem Walk.covers {g : Graph} {seen : List DeclId} {pending : List Ty} {found : List DeclId}
    (h : Walk g seen pending found) :
    (∀ t ∈ pending, g.Covers (seen ++ found) t) ∧
      ∀ id ∈ found, ∀ t, g.Edge (.ref id) t → g.Covers (seen ++ found) t := by
  induction h with
  | done =>
    refine ⟨fun t ht => ?_, fun id hid => ?_⟩
    · cases ht
    · cases hid
  | again hs _ ih =>
    refine ⟨?_, ih.2⟩
    rintro t (_ | ⟨_, ht⟩)
    · exact covers_ref fun _ _ => List.mem_append_left _ hs
    · exact ih.1 t ht
  | missing _ hd _ ih =>
    refine ⟨?_, ih.2⟩
    rintro t (_ | ⟨_, ht⟩)
    · apply covers_ref
      intro d hd'
      rw [hd] at hd'
      cases hd'
    · exact ih.1 t ht
  | @opened seen id d pending found hs hd _ ih =>
    -- the declaration opened is seen by the rest of the walk, and found by the whole of it
    have shift : ∀ t, g.Covers (id :: seen ++ found) t → g.Covers (seen ++ id :: found) t := by
      intro t ht id' d' hid' hd'
      have := ht id' d' hid' hd'
      simp only [List.cons_append, List.mem_cons, List.mem_append] at this ⊢
      exact or_left_comm.mp this
    refine ⟨?_, ?_⟩
    · rintro t (_ | ⟨_, ht⟩)
      · exact covers_ref fun _ _ => List.mem_append_right _ List.mem_cons_self
      · exact shift t (ih.1 t (List.mem_append_right _ ht))
    · rintro id' (_ | ⟨_, hid'⟩) t ht
      · exact shift t (ih.1 t (List.mem_append_left _ ((mem_partsOf_iff hd).mpr ht)))
      · exact shift t (ih.2 id' hid' t ht)
  | inside hne _ ih =>
    refine ⟨?_, ih.2⟩
    rintro t (_ | ⟨_, ht⟩)
    · exact covers_of_parts hne fun t' ht' => ih.1 t' (List.mem_append_left _ ht')
    · exact ih.1 t (List.mem_append_right _ ht)

/-- What is covered by declarations that are closed under edges stays so along edges. -/
theorem Covers.of_reaches {g : Graph} {known : List DeclId} {t t' : Ty}
    (hclosed : ∀ id ∈ known, ∀ t, g.Edge (.ref id) t → g.Covers known t)
    (h : g.Covers known t) (hreach : g.Reaches t t') : g.Covers known t' := by
  induction hreach with
  | refl => exact h
  | @tail a b _ hedge ih =>
    by_cases hid : ∃ id, a = .ref id
    · obtain ⟨id, rfl⟩ := hid
      obtain ⟨d, hd⟩ := hedge.declared
      exact hclosed id (ih id d (Contains.refl _) hd) b hedge
    · have hpart : b ∈ a.parts := (edge_iff_mem_parts fun id hid' => hid ⟨id, hid'⟩).mp hedge
      exact fun id d hin hd => ih id d (Contains.head hpart hin) hd

/-- The walk from one type finds the declarations that the type leads to. -/
theorem Walk.mem_iff {g : Graph} {t : Ty} {found : List DeclId} (h : Walk g [] [t] found)
    {id : DeclId} :
    id ∈ found ↔ (∃ d, g.declaration? id = some d) ∧ g.Reaches t (.ref id) := by
  constructor
  · intro hid
    obtain ⟨hdecl, t', ht', hreach⟩ := h.reaches id hid
    rw [List.mem_singleton] at ht'
    subst ht'
    exact ⟨hdecl, hreach⟩
  · intro h
    obtain ⟨⟨d, hd⟩, hreach⟩ := h
    obtain ⟨hpending, hfound⟩ := h.covers
    rw [List.nil_append] at hpending hfound
    exact (hpending t List.mem_cons_self).of_reaches hfound hreach id d (Contains.refl _) hd

/-! ## Steps enough -/

/-- The nodes of the declarations that are not yet seen. -/
def unseenSize (seen : List DeclId) : List (DeclId × Declaration) → Nat
  | [] => 0
  | (id, d) :: rest =>
    if id ∈ seen then unseenSize seen rest else d.size + unseenSize seen rest

theorem unseenSize_nil (declarations : List (DeclId × Declaration)) :
    unseenSize [] declarations = declarations.foldr (fun d n => d.2.size + n) 0 := by
  induction declarations with
  | nil => rfl
  | cons entry rest ih =>
    obtain ⟨id, d⟩ := entry
    simp [unseenSize, ih]

theorem unseenSize_cons_le (id : DeclId) (seen : List DeclId)
    (declarations : List (DeclId × Declaration)) :
    unseenSize (id :: seen) declarations ≤ unseenSize seen declarations := by
  induction declarations with
  | nil => exact Nat.le_refl _
  | cons entry rest ih =>
    obtain ⟨id', d⟩ := entry
    simp only [unseenSize, List.mem_cons]
    by_cases hs : id' ∈ seen
    · simp [hs, ih]
    · by_cases heq : id' = id
      · simp only [heq, true_or, if_true]
        split <;> omega
      · simp only [heq, hs, or_self, if_false]
        omega

/-- Seeing a declaration takes its nodes off. -/
theorem unseenSize_cons {id : DeclId} {d : Declaration} {seen : List DeclId}
    {declarations : List (DeclId × Declaration)} (hs : id ∉ seen)
    (hd : declarations.lookup id = some d) :
    unseenSize (id :: seen) declarations + d.size ≤ unseenSize seen declarations := by
  induction declarations with
  | nil => cases hd
  | cons entry rest ih =>
    obtain ⟨id', d'⟩ := entry
    simp only [unseenSize, List.mem_cons]
    by_cases heq : id = id'
    · subst heq
      rw [List.lookup_cons_self, Option.some.injEq] at hd
      subst hd
      have hle := unseenSize_cons_le id seen rest
      simp only [true_or, if_true, hs, if_false]
      omega
    · have hne : (id == id') = false := beq_eq_false_iff_ne.mpr heq
      rw [List.lookup_cons, hne] at hd
      have hle := ih hd
      by_cases hs' : id' ∈ seen
      · simpa [hs'] using hle
      · simp only [Ne.symm heq, hs', or_self, if_false]
        omega

/-- The steps that the walk has to go at most. -/
def stepsLeft (g : Graph) (seen : List DeclId) (pending : List Ty) : Nat :=
  sizeAll pending + unseenSize seen g.declarations

theorem sizeAll_partsOf_lt (id : DeclId) (d : Declaration) :
    sizeAll (partsOf id d) < d.size := by
  have hle : sizeAll (partsOf id d) ≤ sizeAll d.types := by
    unfold partsOf
    split
    · split
      · simp [sizeAll]
      · exact Nat.le_refl _
    · exact Nat.le_refl _
  unfold Declaration.size
  omega

/-- A walk over the parts of a type is followed by one over the type. -/
theorem walk_reachFrom_parts {g : Graph} {seen : List DeclId} {t : Ty} {pending : List Ty}
    {steps : Nat} (ht : ∀ id, t ≠ .ref id)
    (h : Walk g seen (t.parts ++ pending) (g.reachFrom steps seen (t.parts ++ pending))) :
    Walk g seen (t :: pending) (g.reachFrom (steps + 1) seen (t :: pending)) := by
  cases t with
  | ref id => exact absurd rfl (ht id)
  | array | record | union | model | intrinsic | string | number | boolean =>
    exact Walk.inside ht h

/-- With as many steps as there are nodes left, the walk comes to its end. -/
theorem walk_reachFrom {g : Graph} {steps : Nat} {seen : List DeclId} {pending : List Ty}
    (h : g.stepsLeft seen pending ≤ steps) :
    Walk g seen pending (g.reachFrom steps seen pending) := by
  induction steps generalizing seen pending with
  | zero =>
    cases pending with
    | nil => exact Walk.done seen
    | cons t rest =>
      have := size_pos t
      simp only [stepsLeft, sizeAll] at h
      omega
  | succ steps ih =>
    cases pending with
    | nil => exact Walk.done seen
    | cons t pending =>
      simp only [stepsLeft, sizeAll] at h
      by_cases hid : ∃ id, t = .ref id
      · obtain ⟨id, rfl⟩ := hid
        simp only [TypeExpr.size] at h
        by_cases hs : id ∈ seen
        · have hrest : g.stepsLeft seen pending ≤ steps := by unfold stepsLeft; omega
          simpa [reachFrom, hs] using Walk.again hs (ih hrest)
        · cases hd : g.declaration? id with
          | none =>
            have hrest : g.stepsLeft seen pending ≤ steps := by unfold stepsLeft; omega
            simpa [reachFrom, hs, hd] using Walk.missing hs hd (ih hrest)
          | some d =>
            have hrest : g.stepsLeft (id :: seen) (partsOf id d ++ pending) ≤ steps := by
              have hseen := unseenSize_cons hs hd
              have hparts := sizeAll_partsOf_lt id d
              unfold stepsLeft
              rw [sizeAll_append]
              omega
            simpa [reachFrom, hs, hd] using Walk.opened hs hd (ih hrest)
      · have hne : ∀ id, t ≠ .ref id := fun id heq => hid ⟨id, heq⟩
        apply walk_reachFrom_parts hne
        apply ih
        rw [size_eq t] at h
        unfold stepsLeft
        rw [sizeAll_append]
        omega

/-- The walk from a type ends, and in one way. -/
theorem walk_iff {g : Graph} {t : Ty} {found : List DeclId} :
    Walk g [] [t] found ↔ found = g.reach t := by
  have hwalk : Walk g [] [t] (g.reach t) := by
    apply walk_reachFrom
    simp only [stepsLeft, sizeAll, unseenSize_nil, Graph.size]
    omega
  constructor
  · exact fun h => h.unique hwalk
  · rintro rfl
    exact hwalk

/-- The declarations found from a type are those it leads to. -/
theorem mem_reach_iff {g : Graph} {t : Ty} {id : DeclId} :
    id ∈ g.reach t ↔ (∃ d, g.declaration? id = some d) ∧ g.Reaches t (.ref id) :=
  (walk_iff.mpr rfl).mem_iff

end ApiEmit.Graph
