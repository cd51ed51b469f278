/-
ApiEmit.Proofs.Reordering — it does not matter in which order a document declares.

`Document.Reorders` relates documents with the same namespaces in which the declarations and
operations stand in another order. A name is looked up in a table, and the tables of two such
documents find the same (`lookup?_congr`), so each entry is resolved to the same in both. What is
gathered of all entries is then the same up to order (`Graph.SameUpToOrder`).
-/
import ApiEmit.Proofs.Aligned
import ApiEmit.Proofs.Loaded

namespace ApiEmit

namespace Document

/-! ## Reordered documents -/

/-- The operations of an interface in another order. -/
structure Interface.Reorders (i i' : Interface) : Prop where
  name : i.name = i'.name
  operations : i.operations.Perm i'.operations

/-- What stands in a namespace itself in another order. -/
structure Namespace.SameEntries (ns ns' : Namespace) : Prop where
  name : ns.name = ns'.name
  doc : ns.doc = ns'.doc
  service : ns.service = ns'.service
  servers : ns.servers = ns'.servers
  models : ns.models.Perm ns'.models
  enums : ns.enums.Perm ns'.enums
  unions : ns.unions.Perm ns'.unions
  scalars : ns.scalars.Perm ns'.scalars
  operations : ns.operations.Perm ns'.operations
  interfaces : List.Forall₂ Interface.Reorders ns.interfaces ns'.interfaces

/-- Namespaces that differ only in the order of what is declared in them and in those below. -/
inductive Namespace.Reorders : Namespace → Namespace → Prop
  | intro {ns ns' : Namespace} (entries : ns.SameEntries ns')
      (namespaces : List.Forall₂ Namespace.Reorders ns.namespaces ns'.namespaces) :
      Namespace.Reorders ns ns'

/-- Documents that differ only in the order of the declarations and operations. -/
structure Reorders (doc doc' : Document) : Prop where
  root : doc.root.Reorders doc'.root
  diagnostics : doc.diagnostics = doc'.diagnostics

theorem Namespace.Reorders.sameEntries {ns ns' : Namespace} (h : ns.Reorders ns') :
    ns.SameEntries ns' := by
  cases h with
  | intro entries _ => exact entries

/-- The same names are declared. -/
theorem Namespace.SameEntries.declared {ns ns' : Namespace} (h : ns.SameEntries ns') :
    ns.declared.Perm ns'.declared :=
  (((h.models.map _).append (h.enums.map _)).append (h.unions.map _)).append (h.scalars.map _)

theorem Namespace.SameEntries.symm {ns ns' : Namespace} (h : ns.SameEntries ns') :
    ns'.SameEntries ns where
  name := h.name.symm
  doc := h.doc.symm
  service := h.service.symm
  servers := h.servers.symm
  models := h.models.symm
  enums := h.enums.symm
  unions := h.unions.symm
  scalars := h.scalars.symm
  operations := h.operations.symm
  interfaces := (h.interfaces.imp fun _ _ hi => ⟨hi.name.symm, hi.operations.symm⟩).flip

theorem Namespace.Reorders.symm {ns ns' : Namespace} (h : ns.Reorders ns') : ns'.Reorders ns := by
  have hsymm : (∀ (_ : NamespaceId) (ns : Namespace), ∀ ns', ns.Reorders ns' → ns'.Reorders ns) ∧
      ∀ (_ : NamespaceId) (_ : Nat) (children : List Namespace), ∀ children',
        List.Forall₂ Reorders children children' → List.Forall₂ Reorders children' children := by
    apply Load.sites_induction
    · intro _ ns ih ns' h
      cases h with
      | intro entries namespaces => exact .intro entries.symm (ih _ namespaces)
    · intro _ _ children' h
      cases h
      exact .nil
    · intro _ _ ns rest ihFirst ihRest children' h
      cases h with
      | cons hfirst hrest => exact .cons (ihFirst _ hfirst) (ihRest _ hrest)
  exact hsymm.1 .root ns ns' h

theorem Reorders.symm {doc doc' : Document} (h : doc.Reorders doc') : doc'.Reorders doc :=
  ⟨h.root.symm, h.diagnostics.symm⟩

end Document

/-! ## Programs up to order -/

/-- Namespaces that list the same names. -/
structure Namespace.SameNames (ns ns' : Namespace) : Prop where
  id : ns.id = ns'.id
  doc : ns.doc = ns'.doc
  service : ns.service = ns'.service
  servers : ns.servers = ns'.servers
  declared : ns.declared.Perm ns'.declared

/-- Namespaces at one place in which the same names are declared. -/
structure Namespace.DeclaresSame (ns ns' : Namespace) : Prop where
  id : ns.id = ns'.id
  declared : ns.declared.Perm ns'.declared

theorem Namespace.SameNames.declaresSame {ns ns' : Namespace} (h : ns.SameNames ns') :
    ns.DeclaresSame ns' :=
  ⟨h.id, h.declared⟩

/-- Programs that differ only in the order of the declarations and operations. -/
structure Graph.SameUpToOrder (g g' : Graph) : Prop where
  namespaces : List.Forall₂ Namespace.SameNames g.namespaces g'.namespaces
  declarations : g.declarations.Perm g'.declarations
  operations : g.operations.Perm g'.operations
  diagnostics : g.diagnostics = g'.diagnostics

/-! ## Results up to order -/

section

variable {ε α β : Type}

/-- A step that succeeds for each entry succeeds for them in another order, and the results are the
same up to order. -/
theorem exists_mapM_of_perm {f : α → Except ε β} {entries entries' : List α} {results : List β}
    (hperm : entries.Perm entries') (h : entries.mapM f = .ok results) :
    ∃ results', entries'.mapM f = .ok results' ∧ results.Perm results' := by
  induction hperm generalizing results with
  | nil => exact ⟨results, h, .refl _⟩
  | cons a _ ih =>
    obtain ⟨b, bs, ha, hrest, rfl⟩ := mapM_cons_eq_ok_iff.mp h
    obtain ⟨bs', hrest', hbs⟩ := ih hrest
    exact ⟨b :: bs', mapM_cons_eq_ok_iff.mpr ⟨b, bs', ha, hrest', rfl⟩, hbs.cons b⟩
  | swap a a' rest =>
    obtain ⟨b', _, ha', hothers, rfl⟩ := mapM_cons_eq_ok_iff.mp h
    obtain ⟨b, bs, ha, hrest, rfl⟩ := mapM_cons_eq_ok_iff.mp hothers
    exact ⟨b :: b' :: bs, mapM_cons_eq_ok_iff.mpr ⟨b, b' :: bs, ha,
      mapM_cons_eq_ok_iff.mpr ⟨b', bs, ha', hrest, rfl⟩, rfl⟩, .swap b b' bs⟩
  | trans _ _ ih ih' =>
    obtain ⟨bs, hbs, hperm⟩ := ih h
    obtain ⟨bs', hbs', hperm'⟩ := ih' hbs
    exact ⟨bs', hbs', hperm.trans hperm'⟩

/-- Steps that agree on the entries have the same results. -/
theorem mapM_congr {f f' : α → Except ε β} {entries : List α} (h : ∀ a ∈ entries, f a = f' a) :
    entries.mapM f = entries.mapM f' := by
  induction entries with
  | nil => rfl
  | cons a rest ih =>
    rw [List.mapM_cons, List.mapM_cons, h a List.mem_cons_self,
      ih fun b hb => h b (List.mem_cons_of_mem _ hb)]

theorem flatMap_perm_of_forall₂ {γ : Type} {r : α → β → Prop} {f : α → List γ} {f' : β → List γ}
    {entries : List α} {entries' : List β} (h : List.Forall₂ r entries entries')
    (hf : ∀ a b, r a b → (f a).Perm (f' b)) : (entries.flatMap f).Perm (entries'.flatMap f') := by
  induction h with
  | nil => exact .refl _
  | cons hab _ ih => exact (hf _ _ hab).append ih

/-- Related lists are searched alike. -/
theorem rel_find?_of_forall₂ {r : α → β → Prop} {p : α → Bool} {p' : β → Bool}
    {entries : List α} {entries' : List β} (h : List.Forall₂ r entries entries')
    (hp : ∀ a b, r a b → p a = p' b) :
    (entries.find? p = none ∧ entries'.find? p' = none) ∨
      ∃ a b, entries.find? p = some a ∧ entries'.find? p' = some b ∧ a ∈ entries ∧ r a b := by
  induction h with
  | nil => exact .inl ⟨rfl, rfl⟩
  | @cons a b _ _ hab _ ih =>
    rw [List.find?_cons, List.find?_cons, ← hp a b hab]
    cases p a with
    | true => exact .inr ⟨a, b, rfl, rfl, List.mem_cons_self, hab⟩
    | false =>
      rcases ih with hnone | ⟨a', b', ha, hb, hmem, hab'⟩
      · exact .inl hnone
      · exact .inr ⟨a', b', ha, hb, List.mem_cons_of_mem _ hmem, hab'⟩

/-- A key is looked up in any order, where no key stands twice. -/
theorem lookup_eq_of_perm {κ : Type} [DecidableEq κ] {entries entries' : List (κ × β)}
    (hperm : entries.Perm entries') (hnodup : (entries.map (·.1)).Nodup) (k : κ) :
    entries.lookup k = entries'.lookup k := by
  have hnodup' : (entries'.map (·.1)).Nodup := (hperm.map _).nodup_iff.mp hnodup
  refine Option.ext fun b => ?_
  rw [Keyed.lookup_eq_some_iff_mem hnodup, Keyed.lookup_eq_some_iff_mem hnodup', hperm.mem_iff]

end

namespace Scope

/-! ## Looking names up -/

variable {namespaces namespaces' : List Namespace}

theorem child?_congr (h : List.Forall₂ Namespace.DeclaresSame namespaces namespaces')
    (parent : NamespaceId) (name : String) :
    child? namespaces parent name = child? namespaces' parent name := by
  unfold child?
  rcases rel_find?_of_forall₂ (p := fun ns => ns.id.parent? == some parent && ns.id.name == name)
    h fun ns ns' hns => by rw [hns.id] with ⟨hnone, hnone'⟩ | ⟨ns, ns', hns, hns', _, hsame⟩
  · rw [hnone, hnone']
  · rw [hns, hns', Option.map_some, Option.map_some, hsame.id]

theorem kindIn?_congr (h : List.Forall₂ Namespace.DeclaresSame namespaces namespaces')
    (hnodup : ∀ ns ∈ namespaces, (ns.declared.map (·.1)).Nodup) (id : NamespaceId)
    (name : String) : kindIn? namespaces id name = kindIn? namespaces' id name := by
  unfold kindIn?
  rcases rel_find?_of_forall₂ (p := fun ns => ns.id == id) h fun ns ns' hns => by rw [hns.id] with
    ⟨hnone, hnone'⟩ | ⟨ns, ns', hns, hns', hmem, hsame⟩
  · rw [hnone, hnone']
  · rw [hns, hns', Option.bind_some, Option.bind_some,
      lookup_eq_of_perm hsame.declared (hnodup ns hmem)]

theorem lookupIn?_congr (h : List.Forall₂ Namespace.DeclaresSame namespaces namespaces')
    (hnodup : ∀ ns ∈ namespaces, (ns.declared.map (·.1)).Nodup) (start : NamespaceId)
    (path : List String) : lookupIn? namespaces start path = lookupIn? namespaces' start path := by
  fun_induction lookupIn? namespaces start path with
  | case1 => rfl
  | case2 start name => rw [lookupIn?, kindIn?_congr h hnodup]
  | case3 start segment rest hrest ih =>
    rw [lookupIn?, child?_congr h]
    · exact Option.bind_congr fun inner _ => ih inner
    · exact hrest

/-- Names mean the same in tables that declare the same names. -/
theorem lookup?_congr (h : List.Forall₂ Namespace.DeclaresSame namespaces namespaces')
    (hnodup : ∀ ns ∈ namespaces, (ns.declared.map (·.1)).Nodup) :
    lookup? namespaces = lookup? namespaces' := by
  funext scope name
  unfold lookup?
  have hin : lookupIn? namespaces = lookupIn? namespaces' := by
    funext start path
    exact lookupIn?_congr h hnodup start path
  rw [hin]

end Scope

namespace Load

/-! ## Sites -/

/-- Sites at one place that hold the same. -/
structure Site.SameEntries (s s' : Site) : Prop where
  id : s.id = s'.id
  content : s.content.SameEntries s'.content

theorem sites_reorders :
    (∀ id ns, ∀ ns', Document.Namespace.Reorders ns ns' →
      List.Forall₂ Site.SameEntries (sites id ns) (sites id ns')) ∧
    ∀ id position children, ∀ children',
      List.Forall₂ Document.Namespace.Reorders children children' →
        List.Forall₂ Site.SameEntries (sitesBelow id position children)
          (sitesBelow id position children') := by
  apply sites_induction
  · intro id ns ih ns' h
    cases h with
    | intro entries namespaces =>
      rw [sites_eq, sites_eq]
      exact .cons ⟨rfl, entries⟩ (ih _ namespaces)
  · intro id position children' h
    cases h
    exact .nil
  · intro id position ns rest ihFirst ihRest children' h
    cases h with
    | @cons _ ns' _ rest' hfirst hrest =>
      have hname : ns.name = ns'.name := hfirst.sameEntries.name
      rw [sitesBelow, sitesBelow, ← hname]
      exact List.rel_append (ihFirst ns' hfirst) (ihRest rest' hrest)

theorem Site.SameEntries.declare {s s' : Site} (h : s.SameEntries s') :
    s.declare.SameNames s'.declare where
  id := h.id
  doc := h.content.doc
  service := by
    have hservice := h.content.service
    unfold Site.declare
    rw [hservice]
  servers := h.content.servers
  declared := by
    rw [declared_declare, declared_declare]
    exact h.content.declared

theorem Site.SameEntries.operations {s s' : Site} (h : s.SameEntries s') :
    s.operations.Perm s'.operations := by
  unfold Site.operations
  rw [h.id]
  refine (h.content.operations.map _).append ?_
  refine flatMap_perm_of_forall₂ h.content.interfaces fun i i' hi => ?_
  rw [hi.name]
  exact hi.operations.map _

section

variable {doc doc' : Document}

theorem sites_of_reorders (h : doc.Reorders doc') :
    List.Forall₂ Site.SameEntries (sites .root doc.root) (sites .root doc'.root) :=
  sites_reorders.1 .root doc.root doc'.root h.root

theorem table_of_reorders (h : doc.Reorders doc') :
    List.Forall₂ Namespace.SameNames (table doc) (table doc') := by
  have hsites := sites_of_reorders h
  rw [sites_eq, sites_eq, List.forall₂_cons] at hsites
  have hlibrary : Library.namespaceEntry.SameNames Library.namespaceEntry :=
    ⟨rfl, rfl, rfl, rfl, .refl _⟩
  rw [table_eq, table_eq]
  refine .cons hsites.1.declare (.cons hlibrary ?_)
  rw [List.forall₂_map_left_iff, List.forall₂_map_right_iff]
  exact hsites.2.imp fun s s' hs => hs.declare

/-- The entries of a list are the same, up to order. -/
theorem entries_perm_of_reorders {α : Type} {list : Document.Namespace → List α}
    (name : α → String) (h : doc.Reorders doc')
    (hlist : ∀ ns ns', Document.Namespace.SameEntries ns ns' → (list ns).Perm (list ns')) :
    (entries list name (sites .root doc.root)).Perm
      (entries list name (sites .root doc'.root)) := by
  refine flatMap_perm_of_forall₂ (sites_of_reorders h) fun s s' hs => ?_
  rw [hs.id]
  exact (hlist _ _ hs.content).map _

theorem operations_perm_of_reorders (h : doc.Reorders doc') :
    ((sites .root doc.root).flatMap (·.operations)).Perm
      ((sites .root doc'.root).flatMap (·.operations)) :=
  flatMap_perm_of_forall₂ (sites_of_reorders h) fun _ _ hs => hs.operations

end

/-! ## Resolving -/

section

variable {namespaces namespaces' : List Namespace}

/-- Where names mean the same, so do type expressions. -/
theorem type_congr (h : Scope.lookup? namespaces = Scope.lookup? namespaces')
    (home : NamespaceId) (context : String) :
    (⟨namespaces, home, context⟩ : Place).type = (⟨namespaces', home, context⟩ : Place).type := by
  funext e
  induction e using TypeExpr.induction_parts with
  | step e ih =>
    cases e with
    | ref name =>
      rw [Place.type, Place.type, Place.reference, Place.reference, h]
    | intrinsic | string | number | boolean => rfl
    | array element | record element =>
      rw [Place.type, Place.type, ih element List.mem_cons_self]
    | union es =>
      have hes : ∀ e ∈ es, (⟨namespaces, home, context⟩ : Place).type e =
          (⟨namespaces', home, context⟩ : Place).type e := ih
      rw [Place.type, Place.type, types_eq_mapM, types_eq_mapM, mapM_congr hes]
    | model ps =>
      rw [Place.type, Place.type, inlineProperties_eq_mapM, inlineProperties_eq_mapM,
        mapM_congr fun p hp => by rw [ih p.type (List.mem_map_of_mem hp)]]

theorem declarationOf_congr (h : Scope.lookup? namespaces = Scope.lookup? namespaces')
    (home : NamespaceId) (context : String) (kind : Kind) :
    (⟨namespaces, home, context⟩ : Place).declarationOf kind =
      (⟨namespaces', home, context⟩ : Place).declarationOf kind := by
  funext name
  rw [Place.declarationOf, Place.declarationOf, h]

theorem scalar_congr (h : Scope.lookup? namespaces = Scope.lookup? namespaces')
    (home : NamespaceId) (context : String) :
    Load.scalar ⟨namespaces, home, context⟩ = Load.scalar ⟨namespaces', home, context⟩ := by
  funext s
  rw [Load.scalar, Load.scalar, declarationOf_congr h]

theorem union_congr (h : Scope.lookup? namespaces = Scope.lookup? namespaces')
    (home : NamespaceId) (context : String) :
    Load.union ⟨namespaces, home, context⟩ = Load.union ⟨namespaces', home, context⟩ := by
  funext u
  rw [Load.union, Load.union, type_congr h]

theorem defaultOf?_congr {enums enums' : Enums} (h : ∀ id, enums.lookup id = enums'.lookup id) :
    defaultOf? enums = defaultOf? enums' := by
  funext type value
  cases value with
  | string s =>
    cases type with
    | ref id => rw [defaultOf?, defaultOf?, h]
    | _ => rfl
  | _ => rfl

theorem model_congr (h : Scope.lookup? namespaces = Scope.lookup? namespaces')
    {enums enums' : Enums} (henums : ∀ id, enums.lookup id = enums'.lookup id)
    (home : NamespaceId) (context : String) :
    Load.model enums ⟨namespaces, home, context⟩ =
      Load.model enums' ⟨namespaces', home, context⟩ := by
  have hproperty : property enums ⟨namespaces, home, context⟩ =
      property enums' ⟨namespaces', home, context⟩ := by
    funext p
    rw [property, property, type_congr h, defaultOf?_congr henums]
  funext m
  rw [Load.model, Load.model, declarationOf_congr h, type_congr h, hproperty]

theorem operation_congr (h : Scope.lookup? namespaces = Scope.lookup? namespaces') :
    operation namespaces = operation namespaces' := by
  have hbody : ∀ home context, body ⟨namespaces, home, context⟩ =
      body ⟨namespaces', home, context⟩ := by
    intro home context
    funext b
    rw [body, body, type_congr h]
  funext home interface op
  unfold operation
  simp only [hbody, type_congr h]

/-- Entries that are resolved in two tables and in two orders have the same results. -/
theorem exists_resolveAll_of_perm {α : Type}
    {resolve resolve' : Place → α → Except LoadError Declaration}
    (hresolve : ∀ home context,
      resolve ⟨namespaces, home, context⟩ = resolve' ⟨namespaces', home, context⟩)
    {declared declared' : List (DeclId × α)} (hperm : declared.Perm declared')
    {resolved : List (DeclId × Declaration)}
    (h : resolveAll namespaces resolve declared = .ok resolved) :
    ∃ resolved', resolveAll namespaces' resolve' declared' = .ok resolved' ∧
      resolved.Perm resolved' := by
  unfold resolveAll at h ⊢
  simp only [hresolve] at h
  exact exists_mapM_of_perm hperm h

end

/-! ## Loading -/

variable {doc doc' : Document} {g : Graph}

theorem enumsOf_perm_of_reorders (h : doc.Reorders doc') : (enumsOf doc).Perm (enumsOf doc') :=
  (entries_perm_of_reorders _ h fun _ _ hns => hns.enums).map _

/-- The enums of a document that can be loaded are told apart by their identities. -/
theorem enumsOf_nodup (hg : Graph.ofDocument doc = .ok g) : ((enumsOf doc).map (·.1)).Nodup := by
  have hnodup := Graph.ids_nodup_of_ofDocument hg
  obtain ⟨_, scalars, unions, models, _, _, _, _, _, rfl⟩ := ofDocument_eq_ok_iff.mp hg
  simp only [List.map_append, List.map_map] at hnodup
  exact hnodup.of_append_left.of_append_left.of_append_left.of_append_right

/-- The same is written at every place. -/
theorem scope_of_reorders (h : doc.Reorders doc') {home : NamespaceId} {ns : Document.Namespace}
    {around : List Document.Namespace} (hs : doc.Scope home (ns :: around)) :
    ∃ ns' around', doc'.Scope home (ns' :: around') ∧ ns.SameEntries ns' := by
  obtain ⟨s, hmem, hsame⟩ := Aligned.exists_left (sites_of_reorders h.symm) (mem_sites_of_scope hs)
  obtain ⟨around', hscope⟩ := mem_sites_iff.mp hmem
  obtain rfl : s.id = home := hsame.id
  exact ⟨s.content, around', hscope, hsame.content.symm⟩

theorem distinct_of_reorders (h : doc.Reorders doc') (hd : doc.Distinct) : doc'.Distinct := by
  intro id ns around hscope
  obtain ⟨ns', around', hscope', hsame⟩ := scope_of_reorders h.symm hscope
  have hdeclared : ns.declared.Perm ns'.declared := hsame.declared
  exact (hdeclared.map _).nodup_iff.mpr (hd id ns' around' hscope')

/-- **A document that can be loaded can be loaded in any order**, to the same program up to
order. -/
theorem exists_ofDocument_of_reorders (h : doc.Reorders doc') (hg : Graph.ofDocument doc = .ok g) :
    ∃ g', Graph.ofDocument doc' = .ok g' ∧ g.SameUpToOrder g' := by
  have htable := table_of_reorders h
  have hnames : Scope.lookup? (table doc) = Scope.lookup? (table doc') := by
    refine Scope.lookup?_congr (htable.imp fun _ _ hns => hns.declaresSame) ?_
    rw [← namespaces_of_ofDocument hg]
    exact (Graph.coherent_of_ofDocument hg).names_nodup
  have henums : ∀ id, (enumsOf doc).lookup id = (enumsOf doc').lookup id :=
    lookup_eq_of_perm (enumsOf_perm_of_reorders h) (enumsOf_nodup hg)
  obtain ⟨hd, scalars, unions, models, operations, hscalars, hunions, hmodels, hoperations, rfl⟩ :=
    ofDocument_eq_ok_iff.mp hg
  obtain ⟨scalars', hscalars', hscalarsPerm⟩ := exists_resolveAll_of_perm (scalar_congr hnames)
    (entries_perm_of_reorders _ h fun _ _ hns => hns.scalars) hscalars
  obtain ⟨unions', hunions', hunionsPerm⟩ := exists_resolveAll_of_perm (union_congr hnames)
    (entries_perm_of_reorders _ h fun _ _ hns => hns.unions) hunions
  obtain ⟨models', hmodels', hmodelsPerm⟩ :=
    exists_resolveAll_of_perm (model_congr hnames henums)
      (entries_perm_of_reorders _ h fun _ _ hns => hns.models) hmodels
  obtain ⟨operations', hoperations', hoperationsPerm⟩ :=
    exists_mapM_of_perm (operations_perm_of_reorders h) hoperations
  rw [operation_congr hnames] at hoperations'
  refine ⟨_, ofDocument_eq_ok_iff.mpr ⟨distinct_of_reorders h hd, scalars', unions', models',
    operations', hscalars', hunions', hmodels', hoperations', rfl⟩, ?_⟩
  exact
    { namespaces := htable
      declarations := (((((List.Perm.refl _).append ((enumsOf_perm_of_reorders h).map _)).append
        hscalarsPerm).append hunionsPerm).append hmodelsPerm)
      operations := hoperationsPerm
      diagnostics := h.diagnostics }

end Load

end ApiEmit
