/-
ApiEmit.Proofs.Usage — the usage map holds exactly what operations reach.

The map is filled by marking one root after the other, and each marking only adds roles. So a
declaration has a role in the end exactly when some root of that role leads to it
(`hasRole_foldl_mark_iff`). What the roots are is said here once more without lists: `Considers`
for the operations that decide, `Carries` for the types that an operation takes and gives.
-/
import ApiEmit.Proofs.Keyed
import ApiEmit.Proofs.Reach

namespace ApiEmit

/-! ## Namespaces within namespaces -/

/-- A namespace is another one or lies below it. -/
def NamespaceId.Within : NamespaceId → NamespaceId → Prop :=
  Relation.ReflTransGen fun inner around => inner.parent? = some around

theorem NamespaceId.isWithin_iff {id outer : NamespaceId} :
    id.isWithin outer = true ↔ id.Within outer := by
  unfold NamespaceId.isWithin
  rw [List.isSuffixOf_iff_suffix]
  constructor
  · obtain ⟨segments⟩ := id
    obtain ⟨around⟩ := outer
    intro h
    obtain ⟨steps, hsteps⟩ := h
    change steps ++ around = segments at hsteps
    subst hsteps
    induction steps with
    | nil => exact Relation.ReflTransGen.refl
    | cons step steps ih => exact Relation.ReflTransGen.head rfl ih
  · intro h
    induction h with
    | refl => exact List.suffix_refl _
    | @tail inner around _ hparent ih =>
      have hsuffix : around.segments <:+ inner.segments := by
        obtain ⟨inside⟩ := inner
        cases inside with
        | nil => cases hparent
        | cons step rest =>
          rw [← Option.some.inj hparent]
          exact List.suffix_cons step rest
      exact hsuffix.trans ih

/-! ## Roles in a usage map -/

namespace UsageMap

/-- A declaration has a role. -/
def HasRole (usage : UsageMap) (id : DeclId) (role : Role) : Prop :=
  ∃ roles, usage.roles? id = some roles ∧ roles.has role = true

theorem not_hasRole_empty (id : DeclId) (role : Role) : ¬ empty.HasRole id role := by
  intro h
  obtain ⟨roles, hroles, _⟩ := h
  cases hroles

theorem has_insert (roles : Roles) (role role' : Role) :
    (roles.insert role).has role' = (roles.has role' || decide (role' = role)) := by
  cases role <;> cases role' <;> simp [Roles.insert, Roles.has]

theorem has_none (role : Role) : Roles.has {} role = false := by
  cases role <;> rfl

/-- Adding a role changes the entry of one declaration. -/
theorem lookup_insertIn (entries : List (DeclId × Roles)) (id id' : DeclId) (role : Role) :
    (insertIn id role entries).lookup id' =
      if id' = id then some (((entries.lookup id).getD {}).insert role)
      else entries.lookup id' := by
  induction entries with
  | nil =>
    rw [insertIn]
    by_cases h : id' = id
    · simp [h]
    · rw [Keyed.lookup_cons_of_ne h, if_neg h]
  | cons entry rest ih =>
    obtain ⟨first, roles⟩ := entry
    rw [insertIn]
    by_cases hfirst : first = id
    · subst hfirst
      rw [if_pos rfl]
      by_cases h : id' = first
      · simp [h]
      · rw [Keyed.lookup_cons_of_ne h, Keyed.lookup_cons_of_ne h, if_neg h]
    · rw [if_neg hfirst, Keyed.lookup_cons_of_ne (Ne.symm hfirst)]
      by_cases h : id' = first
      · subst h
        simp [hfirst]
      · rw [Keyed.lookup_cons_of_ne h, Keyed.lookup_cons_of_ne h, ih]

theorem hasRole_insert_iff {usage : UsageMap} {id id' : DeclId} {role role' : Role} :
    (usage.insert id role).HasRole id' role' ↔
      usage.HasRole id' role' ∨ (id' = id ∧ role' = role) := by
  unfold HasRole UsageMap.insert roles?
  rw [lookup_insertIn]
  by_cases h : id' = id
  · subst h
    rw [if_pos rfl]
    cases usage.entries.lookup id' with
    | none => simp [has_insert, has_none]
    | some roles => simp [has_insert]
  · simp [h]

theorem hasRole_foldl_insert_iff {ids : List DeclId} {usage : UsageMap} {id : DeclId}
    {role role' : Role} :
    (ids.foldl (fun usage id => usage.insert id role') usage).HasRole id role ↔
      usage.HasRole id role ∨ (role = role' ∧ id ∈ ids) := by
  induction ids generalizing usage with
  | nil => simp
  | cons first rest ih =>
    rw [List.foldl_cons, ih, hasRole_insert_iff, List.mem_cons]
    refine ⟨fun h => ?_, fun h => ?_⟩
    · rcases h with (h | ⟨rfl, rfl⟩) | ⟨rfl, h⟩
      · exact Or.inl h
      · exact Or.inr ⟨rfl, Or.inl rfl⟩
      · exact Or.inr ⟨rfl, Or.inr h⟩
    · rcases h with h | ⟨rfl, rfl | h⟩
      · exact Or.inl (Or.inl h)
      · exact Or.inl (Or.inr ⟨rfl, rfl⟩)
      · exact Or.inr ⟨rfl, h⟩

/-- Marking from one type gives its role to what the type reaches, and takes none away. -/
theorem hasRole_mark_iff {g : Graph} {usage : UsageMap} {use : Ty × Role} {id : DeclId}
    {role : Role} :
    (usage.mark g use).HasRole id role ↔
      usage.HasRole id role ∨ (role = use.2 ∧ g.isTagged id = true ∧ id ∈ g.reach use.1) := by
  unfold mark
  rw [hasRole_foldl_insert_iff, List.mem_filter, and_comm (a := id ∈ g.reach use.1)]

/-- Marking from several types adds up. -/
theorem hasRole_foldl_mark_iff {g : Graph} {uses : List (Ty × Role)} {usage : UsageMap}
    {id : DeclId} {role : Role} :
    (uses.foldl (mark g) usage).HasRole id role ↔
      usage.HasRole id role ∨ (g.isTagged id = true ∧ ∃ t, (t, role) ∈ uses ∧ id ∈ g.reach t) := by
  induction uses generalizing usage with
  | nil => simp
  | cons use rest ih =>
    obtain ⟨t, role'⟩ := use
    rw [List.foldl_cons, ih, hasRole_mark_iff]
    constructor
    · rintro ((h | ⟨rfl, htag, hreach⟩) | ⟨htag, t', ht', hreach⟩)
      · exact Or.inl h
      · exact Or.inr ⟨htag, t, List.mem_cons_self, hreach⟩
      · exact Or.inr ⟨htag, t', List.mem_cons_of_mem _ ht', hreach⟩
    · intro h
      rcases h with h | ⟨htag, t', ht', hreach⟩
      · exact Or.inl (Or.inl h)
      · rcases List.mem_cons.mp ht' with heq | hrest
        · cases heq
          exact Or.inl (Or.inr ⟨rfl, htag, hreach⟩)
        · exact Or.inr ⟨htag, t', hrest, hreach⟩

/-! ## No entry without a role -/

/-- Every entry has a role. -/
def AllHaveRoles (usage : UsageMap) : Prop :=
  ∀ entry ∈ usage.entries, entry.2.input = true ∨ entry.2.output = true

theorem insert_role (roles : Roles) (role : Role) :
    (roles.insert role).input = true ∨ (roles.insert role).output = true := by
  cases role
  · exact Or.inl rfl
  · exact Or.inr rfl

theorem allHaveRoles_insert {usage : UsageMap} (h : usage.AllHaveRoles) (id : DeclId)
    (role : Role) : (usage.insert id role).AllHaveRoles := by
  obtain ⟨entries⟩ := usage
  unfold UsageMap.AllHaveRoles UsageMap.insert at *
  induction entries with
  | nil =>
    intro entry hentry
    simp only [insertIn, List.mem_singleton] at hentry
    subst hentry
    exact insert_role {} role
  | cons first rest ih =>
    obtain ⟨other, roles⟩ := first
    intro entry hentry
    simp only [insertIn] at hentry
    split at hentry
    · rcases List.mem_cons.mp hentry with rfl | hrest
      · exact insert_role roles role
      · exact h entry (List.mem_cons_of_mem _ hrest)
    · rcases List.mem_cons.mp hentry with rfl | hrest
      · exact h _ List.mem_cons_self
      · exact ih (fun e he => h e (List.mem_cons_of_mem _ he)) entry hrest

/-- What holds of a map and survives the giving of a role survives all marking. -/
theorem foldl_mark_induction {P : UsageMap → Prop}
    (hinsert : ∀ usage id role, P usage → P (usage.insert id role)) (g : Graph)
    (uses : List (Ty × Role)) {usage : UsageMap} (h : P usage) :
    P (uses.foldl (mark g) usage) := by
  have hmark : ∀ usage use, P usage → P (usage.mark g use) := by
    intro usage use h
    unfold mark
    induction (g.reach use.1).filter g.isTagged generalizing usage with
    | nil => exact h
    | cons id rest ih => exact ih _ (hinsert usage id use.2 h)
  induction uses generalizing usage with
  | nil => exact h
  | cons use rest ih => exact ih (hmark usage use h)

/-! ## One entry for each declaration -/

/-- A role is added to the entry of a declaration, or makes one at the end. -/
theorem ids_insertIn (id : DeclId) (role : Role) (entries : List (DeclId × Roles)) :
    (insertIn id role entries).map (·.1) =
      if id ∈ entries.map (·.1) then entries.map (·.1) else entries.map (·.1) ++ [id] := by
  induction entries with
  | nil => rfl
  | cons first rest ih =>
    obtain ⟨other, roles⟩ := first
    by_cases hother : other = id
    · simp [insertIn, hother]
    · by_cases hin : id ∈ rest.map (·.1)
      · simp [insertIn, hother, Ne.symm hother, ih, hin]
      · simp [insertIn, hother, Ne.symm hother, ih, hin]

theorem ids_nodup_insert {usage : UsageMap} (h : (usage.entries.map (·.1)).Nodup) (id : DeclId)
    (role : Role) : ((usage.insert id role).entries.map (·.1)).Nodup := by
  unfold UsageMap.insert
  rw [ids_insertIn]
  split
  · exact h
  · rename_i hnew
    exact List.nodup_append.mpr ⟨h, List.nodup_singleton _, fun other hother _ hid =>
      List.mem_singleton.mp hid ▸ fun heq => hnew (heq ▸ hother)⟩

end UsageMap

/-! ## Roots -/

/-- A type that an operation takes or gives, directly: its body and parameters, or the bodies of
its responses. -/
def Operation.Carries (op : Operation) : Role → Ty → Prop
  | .input, t => (∃ b, op.body = some b ∧ b.type = t) ∨ ∃ p ∈ op.parameters, p.type = t
  | .output, t => ∃ r ∈ op.responses, ∃ b ∈ r.bodies, b.type = t

theorem Operation.mem_uses_iff {op : Operation} {t : Ty} {role : Role} :
    (t, role) ∈ op.uses ↔ op.Carries role t := by
  unfold Operation.uses
  simp only [List.mem_append, Option.mem_toList, Option.map_eq_some_iff, List.mem_map,
    List.mem_flatMap, Prod.mk.injEq]
  cases role <;> simp [Operation.Carries]

namespace Graph

/-- An operation of a service: one that is declared in the namespace of the service or below. -/
def Serves (g : Graph) (op : Operation) : Prop :=
  op ∈ g.operations ∧ ∃ ns ∈ g.namespaces, ns.service.isSome = true ∧ op.home.Within ns.id

/-- An operation that decides about usage: one of a service if there is any, and otherwise one
outside the reserved part of the tree. -/
def Considers (g : Graph) (op : Operation) : Prop :=
  (g.Serves op) ∨
    ((∀ other, ¬ g.Serves other) ∧ op ∈ g.operations ∧ op.home.isReserved = false)

theorem mem_services_operations_iff {g : Graph} {op : Operation} :
    op ∈ g.services.flatMap (·.operations) ↔ g.Serves op := by
  unfold services operationsWithin Serves
  simp only [List.mem_flatMap, List.mem_filterMap, Option.map_eq_some_iff]
  constructor
  · intro h
    obtain ⟨s, ⟨ns, hns, mark, hmark, rfl⟩, hop⟩ := h
    rw [List.mem_filter, NamespaceId.isWithin_iff] at hop
    exact ⟨hop.1, ns, hns, by rw [hmark]; rfl, hop.2⟩
  · intro h
    obtain ⟨hop, ns, hns, hservice, hwithin⟩ := h
    obtain ⟨mark, hmark⟩ := Option.isSome_iff_exists.mp hservice
    refine ⟨_, ⟨ns, hns, mark, hmark, rfl⟩, ?_⟩
    rw [List.mem_filter, NamespaceId.isWithin_iff]
    exact ⟨hop, hwithin⟩

theorem mem_consideredOperations_iff {g : Graph} {op : Operation} :
    op ∈ g.consideredOperations ↔ g.Considers op := by
  unfold consideredOperations Considers
  simp only [← mem_services_operations_iff]
  cases h : g.services.flatMap (·.operations) with
  | nil => simp
  | cons first rest =>
    have hsome : ¬ ∀ other, other ∉ first :: rest := fun hnone =>
      hnone first List.mem_cons_self
    simp only [List.isEmpty_cons, Bool.false_eq_true, if_false, hsome, false_and, or_false]

/-! ## The usage of a program -/

/-- A declaration that can have roles: a model that is not structural, or an enum or a union
outside the reserved part of the tree. A declared union always has a name. -/
inductive Taggable (g : Graph) (id : DeclId) : Prop
  | model {m : Model} (hm : g.model? id = some m) (h : g.isStructural id = false)
  | enum {e : EnumDecl} (he : g.enum? id = some e) (h : id.isReserved = false)
  | union {u : UnionDecl} (hu : g.union? id = some u) (h : id.isReserved = false)

theorem isTagged_iff {g : Graph} {id : DeclId} : g.isTagged id = true ↔ g.Taggable id := by
  unfold isTagged
  refine ⟨fun h => ?_, fun h => ?_⟩
  · cases hd : g.declaration? id with
    | none => simp [hd] at h
    | some d =>
      rw [hd] at h
      cases d with
      | model m =>
        have hm := model?_eq_some_iff.mpr hd
        exact .model hm (by simpa [isStructural, hm] using h)
      | enum e => exact .enum (enum?_eq_some_iff.mpr hd) (by simpa using h)
      | union u => exact .union (union?_eq_some_iff.mpr hd) (by simpa using h)
      | scalar => cases h
  · cases h with
    | model hm h => simpa [isStructural, hm, model?_eq_some_iff.mp hm] using h
    | enum he h => simp [enum?_eq_some_iff.mp he, h]
    | union hu h => simp [union?_eq_some_iff.mp hu, h]

theorem hasRole_classify_iff {g : Graph} {id : DeclId} {role : Role} :
    g.classify.HasRole id role ↔
      g.Taggable id ∧ ∃ op t, g.Considers op ∧ op.Carries role t ∧ g.Reaches t (.ref id) := by
  unfold classify
  rw [UsageMap.hasRole_foldl_mark_iff, isTagged_iff]
  simp only [UsageMap.not_hasRole_empty, false_or, List.mem_flatMap, mem_reach_iff,
    mem_consideredOperations_iff, Operation.mem_uses_iff]
  constructor
  · intro h
    obtain ⟨htag, t, ⟨op, hop, ht⟩, _, hreach⟩ := h
    exact ⟨htag, op, t, hop, ht, hreach⟩
  · intro h
    obtain ⟨htag, op, t, hop, ht, hreach⟩ := h
    refine ⟨htag, t, ⟨op, hop, ht⟩, ?_, hreach⟩
    cases htag with
    | model hm _ => exact ⟨_, model?_eq_some_iff.mp hm⟩
    | enum he _ => exact ⟨_, enum?_eq_some_iff.mp he⟩
    | union hu _ => exact ⟨_, union?_eq_some_iff.mp hu⟩

/-- What holds of the empty map and survives the giving of a role holds of the usage map. -/
theorem classify_induction (P : UsageMap → Prop) (hempty : P UsageMap.empty)
    (hinsert : ∀ usage id role, P usage → P (usage.insert id role)) (g : Graph) :
    P g.classify :=
  UsageMap.foldl_mark_induction hinsert g _ hempty

theorem allHaveRoles_classify (g : Graph) : g.classify.AllHaveRoles :=
  classify_induction UsageMap.AllHaveRoles nofun
    (fun _ id role h => UsageMap.allHaveRoles_insert h id role) g

/-- No declaration stands twice in the usage map. -/
theorem ids_nodup_classify (g : Graph) : (g.classify.entries.map (·.1)).Nodup :=
  classify_induction (fun usage => (usage.entries.map (·.1)).Nodup) List.nodup_nil
    (fun _ id role h => UsageMap.ids_nodup_insert h id role) g

/-- What is in the usage map has a role, and the other way round. -/
theorem contains_classify_iff {g : Graph} {id : DeclId} :
    g.classify.contains id = true ↔ ∃ role, g.classify.HasRole id role := by
  unfold UsageMap.contains UsageMap.HasRole
  rw [Option.isSome_iff_exists]
  refine ⟨fun h => ?_, fun h => ?_⟩
  · obtain ⟨roles, hroles⟩ := h
    have hmem : (id, roles) ∈ g.classify.entries := Keyed.mem_of_lookup hroles
    rcases allHaveRoles_classify g _ hmem with hinput | houtput
    · exact ⟨.input, roles, hroles, hinput⟩
    · exact ⟨.output, roles, hroles, houtput⟩
  · obtain ⟨role, roles, hroles, _⟩ := h
    exact ⟨roles, hroles⟩

/-- **Exactness of usage**: a declaration has a role exactly when it can have one and a type of
that role of a deciding operation leads to it; an entry of the map has a role; and the walk from
every type, cyclic programs included, ends with the declarations that marking goes through. -/
theorem classify_exact (g : Graph) :
    (∀ id role, g.classify.HasRole id role ↔
      g.Taggable id ∧ ∃ op t, g.Considers op ∧ op.Carries role t ∧ g.Reaches t (.ref id)) ∧
    (∀ entry ∈ g.classify.entries, entry.2.input = true ∨ entry.2.output = true) ∧
    (∀ t, ∃ found, Walk g [] [t] found ∧ (∀ other, Walk g [] [t] other → other = found) ∧
      ∀ usage role, UsageMap.mark g usage (t, role) =
        (found.filter g.isTagged).foldl (fun usage id => usage.insert id role) usage) := by
  refine ⟨fun id role => hasRole_classify_iff, allHaveRoles_classify g, fun t => ?_⟩
  have hwalk : Walk g [] [t] (g.reach t) := walk_iff.mpr rfl
  exact ⟨g.reach t, hwalk, fun other hother => hother.unique hwalk, fun _ _ => rfl⟩

end Graph

end ApiEmit
