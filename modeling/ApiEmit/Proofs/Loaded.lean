/-
ApiEmit.Proofs.Loaded — what a loaded program is made of.

`Declares` reads the declarations of a program off its document, each resolved at its place, and
`Graph.Coherent` says how the two tables of a program go together: what is declared in a namespace
is what has a declaration, of the same kind. Later modules use the second and not the loading.
-/
import ApiEmit.Proofs.Declaration
import ApiEmit.Proofs.Resolved
import Mathlib.Data.List.Perm.Basic

namespace ApiEmit

namespace Load

/-! ## Declarations -/

section

variable {doc : Document} {g : Graph} {id : DeclId} {d : Declaration}

/-- The enums of a document. -/
def enumsOf (doc : Document) : Enums :=
  (entries (·.enums) (·.name) (sites .root doc.root)).map fun (id, e) => (id, ⟨e.doc, e.members⟩)

theorem mem_enumsOf_iff {e : EnumDecl} :
    (id, e) ∈ enumsOf doc ↔ ∃ ns around, Document.Scope doc id.home (ns :: around) ∧
      ∃ written ∈ ns.enums, id.name = written.name ∧ e = ⟨written.doc, written.members⟩ := by
  unfold enumsOf
  rw [List.mem_map]
  refine ⟨fun hmem => ?_, fun hmem => ?_⟩
  · obtain ⟨entry, hentry, heq⟩ := hmem
    obtain ⟨⟨ns, around⟩, hscope, hwritten, hname⟩ := mem_entries_iff.mp hentry
    cases heq
    exact ⟨ns, around, hscope, entry.2, hwritten, hname, rfl⟩
  · obtain ⟨ns, around, hscope, written, hwritten, hname, rfl⟩ := hmem
    exact ⟨(id, written), mem_entries_iff.mpr ⟨(ns, around), hscope, hwritten, hname⟩, rfl⟩

/-- The place in which a declaration is resolved. -/
def placeOf (doc : Document) (id : DeclId) : Place :=
  ⟨table doc, id.home, id.qualifiedName⟩

/-- What is written under a name, resolved where it is written. -/
inductive Declares (doc : Document) (id : DeclId) : Declaration → Prop
  | builtIn {d : Declaration} (h : (id, d) ∈ Library.declarations) : Declares doc id d
  | enum {ns : Document.Namespace} {around : List Document.Namespace} {e : Document.Enum}
      (hs : Document.Scope doc id.home (ns :: around)) (he : e ∈ ns.enums) (hn : id.name = e.name) :
      Declares doc id (.enum ⟨e.doc, e.members⟩)
  | scalar {ns : Document.Namespace} {around : List Document.Namespace} {s : Document.Scalar}
      {d : Declaration} (hs : Document.Scope doc id.home (ns :: around)) (hm : s ∈ ns.scalars)
      (hn : id.name = s.name) (h : Load.scalar (placeOf doc id) s = .ok d) : Declares doc id d
  | union {ns : Document.Namespace} {around : List Document.Namespace} {u : Document.Union}
      {d : Declaration} (hs : Document.Scope doc id.home (ns :: around)) (hm : u ∈ ns.unions)
      (hn : id.name = u.name) (h : Load.union (placeOf doc id) u = .ok d) : Declares doc id d
  | model {ns : Document.Namespace} {around : List Document.Namespace} {m : Document.Model}
      {d : Declaration} (hs : Document.Scope doc id.home (ns :: around)) (hm : m ∈ ns.models)
      (hn : id.name = m.name) (h : Load.model (enumsOf doc) (placeOf doc id) m = .ok d) :
      Declares doc id d

/-- The resolved declarations of one kind are those that can be resolved at their places. -/
theorem mem_resolveAll_iff {α : Type} {resolve : Place → α → Except LoadError Declaration}
    {list : Document.Namespace → List α} {name : α → String}
    {resolved : List (DeclId × Declaration)}
    (h : resolveAll (table doc) resolve (entries list name (sites .root doc.root)) = .ok resolved) :
    (id, d) ∈ resolved ↔ ∃ ns around, Document.Scope doc id.home (ns :: around) ∧
      ∃ a ∈ list ns, id.name = name a ∧ resolve (placeOf doc id) a = .ok d := by
  unfold resolveAll at h
  rw [mem_mapM_iff h]
  refine ⟨fun hmem => ?_, fun hmem => ?_⟩
  · obtain ⟨⟨id', a⟩, hentry, hresolve⟩ := hmem
    obtain ⟨⟨ns, around⟩, hscope, ha, hname⟩ := mem_entries_iff.mp hentry
    obtain ⟨d', hd, heq⟩ := bind_eq_ok_iff.mp hresolve
    cases heq
    exact ⟨ns, around, hscope, a, ha, hname, hd⟩
  · obtain ⟨ns, around, hscope, a, ha, hname, hresolve⟩ := hmem
    exact ⟨(id, a), mem_entries_iff.mpr ⟨(ns, around), hscope, ha, hname⟩,
      bind_eq_ok_iff.mpr ⟨d, hresolve, rfl⟩⟩

/-- Every declaration of one kind is resolved. -/
theorem exists_of_resolveAll {α : Type} {resolve : Place → α → Except LoadError Declaration}
    {list : Document.Namespace → List α} {name : α → String}
    {resolved : List (DeclId × Declaration)}
    (h : resolveAll (table doc) resolve (entries list name (sites .root doc.root)) = .ok resolved)
    {ns : Document.Namespace} {around : List Document.Namespace} {a : α}
    (hs : Document.Scope doc id.home (ns :: around)) (ha : a ∈ list ns) (hn : id.name = name a) :
    ∃ d, resolve (placeOf doc id) a = .ok d := by
  have hmem : (id, a) ∈ entries list name (sites .root doc.root) :=
    mem_entries_iff.mpr ⟨(ns, around), hs, ha, hn⟩
  unfold resolveAll at h
  obtain ⟨entry, hentry⟩ := exists_of_mapM h hmem
  obtain ⟨d, hd, _⟩ := bind_eq_ok_iff.mp hentry
  exact ⟨d, hd⟩

/-! ## The tables of a loaded program -/

/-- A document without repeated names is loaded step by step: scalars, unions, models, operations,
each of them resolved in one table of namespaces. -/
theorem ofDocument_eq_ok_iff :
    Graph.ofDocument doc = .ok g ↔ doc.Distinct ∧ ∃ scalars unions models operations,
      resolveAll (table doc) Load.scalar (entries (·.scalars) (·.name) (sites .root doc.root)) =
        .ok scalars ∧
      resolveAll (table doc) Load.union (entries (·.unions) (·.name) (sites .root doc.root)) =
        .ok unions ∧
      resolveAll (table doc) (Load.model (enumsOf doc))
        (entries (·.models) (·.name) (sites .root doc.root)) = .ok models ∧
      ((sites .root doc.root).flatMap (·.operations)).mapM (fun (home, interface, op) =>
        operation (table doc) home interface op) = .ok operations ∧
      g =
        { namespaces := table doc
          declarations := Library.declarations ++
            (enumsOf doc).map (fun (id, e) => (id, Declaration.enum e)) ++ scalars ++ unions ++
            models
          operations
          diagnostics := doc.diagnostics } := by
  have hchecks : (∃ u, (sites .root doc.root).forM (fun s => checkDistinct s.declare) = .ok u) ↔
      doc.Distinct := (reports_checks doc).exists_ok_iff.trans distinct_iff.symm
  unfold Graph.ofDocument
  dsimp only
  rw [← table_eq, ← sites_eq .root doc.root]
  simp only [bind_eq_ok_iff, ← hchecks]
  constructor
  · rintro ⟨u, hu, scalars, hs, unions, hun, models, hm, operations, ho, heq⟩
    cases heq
    exact ⟨⟨u, hu⟩, scalars, unions, models, operations, hs, hun, hm, ho, rfl⟩
  · rintro ⟨⟨u, hu⟩, scalars, unions, models, operations, hs, hun, hm, ho, rfl⟩
    exact ⟨u, hu, scalars, hs, unions, hun, models, hm, operations, ho, rfl⟩

theorem namespaces_of_ofDocument (h : Graph.ofDocument doc = .ok g) : g.namespaces = table doc := by
  obtain ⟨_, _, _, _, _, _, _, _, _, rfl⟩ := ofDocument_eq_ok_iff.mp h
  rfl

/-- The namespaces stand at the sites, in their order. -/
theorem map_id_namespaces (h : Graph.ofDocument doc = .ok g) :
    g.namespaces.map (·.id) = (known doc).map (·.id) := by
  rw [namespaces_of_ofDocument h, table, List.map_map]
  rfl

/-- The declarations of a loaded program are those of its document. -/
theorem mem_declarations_iff (h : Graph.ofDocument doc = .ok g) :
    (id, d) ∈ g.declarations ↔ Declares doc id d := by
  obtain ⟨_, scalars, unions, models, operations, hscalars, hunions, hmodels, _, rfl⟩ :=
    ofDocument_eq_ok_iff.mp h
  have henum : (id, d) ∈ (enumsOf doc).map (fun (id, e) => (id, Declaration.enum e)) ↔
      ∃ ns around, Document.Scope doc id.home (ns :: around) ∧ ∃ e ∈ ns.enums,
        id.name = e.name ∧ d = .enum ⟨e.doc, e.members⟩ := by
    rw [List.mem_map]
    refine ⟨fun hmem => ?_, fun hmem => ?_⟩
    · obtain ⟨⟨_, e⟩, hentry, heq⟩ := hmem
      cases heq
      obtain ⟨ns, around, hscope, written, hwritten, hname, rfl⟩ := mem_enumsOf_iff.mp hentry
      exact ⟨ns, around, hscope, written, hwritten, hname, rfl⟩
    · obtain ⟨ns, around, hscope, e, he, hname, rfl⟩ := hmem
      exact ⟨(id, _), mem_enumsOf_iff.mpr ⟨ns, around, hscope, e, he, hname, rfl⟩, rfl⟩
  rw [List.mem_append, List.mem_append, List.mem_append, List.mem_append, henum,
    mem_resolveAll_iff hscalars, mem_resolveAll_iff hunions, mem_resolveAll_iff hmodels]
  refine ⟨fun hmem => ?_, fun hdeclares => ?_⟩
  · obtain (((hbuiltIn | ⟨ns, around, hs, e, he, hn, rfl⟩) | ⟨ns, around, hs, s, hm, hn, hok⟩) |
      ⟨ns, around, hs, u, hm, hn, hok⟩) | ⟨ns, around, hs, m, hm, hn, hok⟩ := hmem
    · exact .builtIn hbuiltIn
    · exact .enum hs he hn
    · exact .scalar hs hm hn hok
    · exact .union hs hm hn hok
    · exact .model hs hm hn hok
  · cases hdeclares with
    | builtIn hbuiltIn => exact .inl (.inl (.inl (.inl hbuiltIn)))
    | enum hs he hn => exact .inl (.inl (.inl (.inr ⟨_, _, hs, _, he, hn, rfl⟩)))
    | scalar hs hm hn hok => exact .inl (.inl (.inr ⟨_, _, hs, _, hm, hn, hok⟩))
    | union hs hm hn hok => exact .inl (.inr ⟨_, _, hs, _, hm, hn, hok⟩)
    | model hs hm hn hok => exact .inr ⟨_, _, hs, _, hm, hn, hok⟩

/-! ## Identities -/

/-- Every entry is resolved under its own identity. -/
theorem ids_of_resolveAll {α : Type} {namespaces : List Namespace}
    {resolve : Place → α → Except LoadError Declaration} {declared : List (DeclId × α)}
    {resolved : List (DeclId × Declaration)}
    (h : resolveAll namespaces resolve declared = .ok resolved) :
    resolved.map (·.1) = declared.map (·.1) := by
  unfold resolveAll at h
  induction declared generalizing resolved with
  | nil =>
    cases h
    rfl
  | cons first rest ih =>
    obtain ⟨entry, entries, hfirst, hrest, rfl⟩ := mapM_cons_eq_ok_iff.mp h
    obtain ⟨d, _, hentry⟩ := bind_eq_ok_iff.mp hfirst
    cases hentry
    rw [List.map_cons, List.map_cons, ih hrest]

/-- The identities that the entries of a list have at a site. -/
def idsAt {α : Type} (list : Document.Namespace → List α) (name : α → String) (s : Site) :
    List DeclId :=
  (list s.content).map fun a => ⟨s.id, name a⟩

theorem ids_of_entries {α : Type} (list : Document.Namespace → List α) (name : α → String)
    (all : List Site) : (entries list name all).map (·.1) = all.flatMap (idsAt list name) := by
  unfold entries idsAt
  rw [List.map_flatMap]
  simp [Function.comp_def]

theorem declIds_declare (s : Site) : s.declare.declIds =
    idsAt (·.models) (·.name) s ++ idsAt (·.enums) (·.name) s ++ idsAt (·.unions) (·.name) s ++
      idsAt (·.scalars) (·.name) s := by
  simp [Namespace.declIds, Namespace.declared, Site.declare, idsAt, Function.comp_def]

/-- The declarations are gathered kind by kind, and listed namespace by namespace. -/
theorem ids_perm_declIds_declare (all : List Site) :
    (all.flatMap (idsAt (·.enums) (·.name)) ++ all.flatMap (idsAt (·.scalars) (·.name)) ++
      all.flatMap (idsAt (·.unions) (·.name)) ++ all.flatMap (idsAt (·.models) (·.name))).Perm
        (all.flatMap fun s => s.declare.declIds) := by
  induction all with
  | nil => exact .refl _
  | cons s rest ih =>
    rw [List.perm_iff_count] at ih ⊢
    intro id
    have hrest := ih id
    simp only [List.flatMap_cons, declIds_declare, List.count_append] at hrest ⊢
    omega

/-- The identities of all declarations of a document: those of the library, then kind by kind. -/
def allIds (doc : Document) : List DeclId :=
  Library.declarations.map (·.1) ++
    (entries (·.enums) (·.name) (sites .root doc.root)).map (·.1) ++
    (entries (·.scalars) (·.name) (sites .root doc.root)).map (·.1) ++
    (entries (·.unions) (·.name) (sites .root doc.root)).map (·.1) ++
    (entries (·.models) (·.name) (sites .root doc.root)).map (·.1)

theorem allIds_perm_declIds (doc : Document) :
    (allIds doc).Perm ((table doc).flatMap (·.declIds)) := by
  have hlibrary : Library.declarations.map (·.1) = Library.namespaceEntry.declIds := by decide
  have hsites := ids_perm_declIds_declare (sites .root doc.root)
  simp only [allIds, ids_of_entries, hlibrary, List.append_assoc]
  simp only [List.append_assoc] at hsites
  refine (hsites.append_left _).trans ?_
  rw [table_eq, sites_eq, List.flatMap_cons, List.flatMap_cons, List.flatMap_cons, List.flatMap_map]
  exact List.perm_append_comm_assoc _ _ _

/-- The identities with a declaration are those of the document. -/
theorem ids_eq_allIds (h : Graph.ofDocument doc = .ok g) :
    g.declarations.map (·.1) = allIds doc := by
  obtain ⟨_, scalars, unions, models, _, hscalars, hunions, hmodels, _, rfl⟩ :=
    ofDocument_eq_ok_iff.mp h
  have henums : (((enumsOf doc).map fun (id, e) => (id, Declaration.enum e)).map (·.1)) =
      (entries (·.enums) (·.name) (sites .root doc.root)).map (·.1) := by
    rw [enumsOf, List.map_map, List.map_map]
    rfl
  simp only [allIds, List.map_append, ids_of_resolveAll hscalars, ids_of_resolveAll hunions,
    ids_of_resolveAll hmodels, henums]

/-- The identities with a declaration are those of the names in the namespaces. -/
theorem ids_perm_declIds (h : Graph.ofDocument doc = .ok g) :
    (g.declarations.map (·.1)).Perm (g.namespaces.flatMap (·.declIds)) := by
  rw [ids_eq_allIds h, namespaces_of_ofDocument h]
  exact allIds_perm_declIds doc

/-- Where no namespace stands twice and no name is declared twice, no identity occurs twice. -/
theorem declIds_nodup {table : List Namespace} (hids : (table.map (·.id)).Nodup)
    (hnames : ∀ ns ∈ table, (ns.declared.map (·.1)).Nodup) :
    (table.flatMap (·.declIds)).Nodup := by
  have hhome : ∀ ns : Namespace, ∀ id ∈ ns.declIds, id.home = ns.id := by
    intro ns id hid
    obtain ⟨_, _, rfl⟩ := List.mem_map.mp hid
    rfl
  rw [List.nodup_flatMap]
  refine ⟨fun ns hns => ?_, (List.pairwise_map.mp hids).imp fun hne id hid hid' => ?_⟩
  · apply List.Nodup.of_map DeclId.name
    have hdeclared : ns.declIds.map (·.name) = ns.declared.map (·.1) := by
      simp [Namespace.declIds]
    rw [hdeclared]
    exact hnames ns hns
  · exact hne ((hhome _ id hid).symm.trans (hhome _ id hid'))

/-! ## Kinds -/

theorem mem_declared_iff {ns : Document.Namespace} {name : String} {kind : Kind} :
    (name, kind) ∈ ns.declared ↔
      match kind with
      | .model => ∃ m ∈ ns.models, m.name = name
      | .enum => ∃ e ∈ ns.enums, e.name = name
      | .union => ∃ u ∈ ns.unions, u.name = name
      | .scalar => ∃ s ∈ ns.scalars, s.name = name := by
  unfold Document.Namespace.declared
  cases kind <;> simp

theorem mem_table_of_scope {ns : Document.Namespace} {around : List Document.Namespace}
    {kind : Kind} (hs : Document.Scope doc id.home (ns :: around))
    (h : (id.name, kind) ∈ ns.declared) :
    ∃ entry ∈ table doc, entry.id = id.home ∧ (id.name, kind) ∈ entry.declared := by
  have hstands : Stands doc id.home (ns :: around) := .inl hs
  refine ⟨_, List.mem_map_of_mem hstands.mem_known, rfl, ?_⟩
  rw [declared_declare]
  exact h

theorem kind_of_builtIn (h : (id, d) ∈ Library.declarations) : d.kind = .scalar := by
  obtain ⟨entry, _, heq⟩ := List.mem_map.mp h
  cases heq
  rfl

theorem kind_of_scalar {place : Place} {s : Document.Scalar}
    (h : Load.scalar place s = .ok d) : d.kind = .scalar := by
  obtain ⟨_, _, rfl⟩ := scalar_eq_ok_iff.mp h
  rfl

theorem kind_of_union {place : Place} {u : Document.Union}
    (h : Load.union place u = .ok d) : d.kind = .union := by
  obtain ⟨_, _, rfl⟩ := union_eq_ok_iff.mp h
  rfl

theorem kind_of_model {enums : Enums} {place : Place} {m : Document.Model}
    (h : Load.model enums place m = .ok d) : d.kind = .model := by
  obtain ⟨_, _, _, _, _, _, rfl⟩ := model_eq_ok_iff.mp h
  rfl

/-- What is declared stands in the table, under its kind. -/
theorem Declares.mem_table (h : Declares doc id d) :
    ∃ ns ∈ table doc, ns.id = id.home ∧ (id.name, d.kind) ∈ ns.declared := by
  cases h with
  | builtIn h =>
    rw [kind_of_builtIn h]
    obtain ⟨entry, hentry, heq⟩ := List.mem_map.mp h
    cases heq
    refine ⟨Library.namespaceEntry, ?_, rfl, ?_⟩
    · rw [table_eq]
      exact List.mem_cons_of_mem _ List.mem_cons_self
    · simp only [Library.namespaceEntry, Namespace.declared, List.map_nil, List.nil_append,
        List.map_map]
      exact List.mem_map.mpr ⟨entry, hentry, rfl⟩
  | enum hs he hn => exact mem_table_of_scope hs (mem_declared_iff.mpr ⟨_, he, hn.symm⟩)
  | scalar hs hm hn h =>
    rw [kind_of_scalar h]
    exact mem_table_of_scope hs (mem_declared_iff.mpr ⟨_, hm, hn.symm⟩)
  | union hs hm hn h =>
    rw [kind_of_union h]
    exact mem_table_of_scope hs (mem_declared_iff.mpr ⟨_, hm, hn.symm⟩)
  | model hs hm hn h =>
    rw [kind_of_model h]
    exact mem_table_of_scope hs (mem_declared_iff.mpr ⟨_, hm, hn.symm⟩)

theorem library_ids :
    Library.declarations.map (·.1) = Document.library.declared.map (Library.scalarId ·.1) := by
  decide

/-- What stands in the table is declared. -/
theorem exists_declares (h : Graph.ofDocument doc = .ok g) {ns : Namespace} {kind : Kind}
    (hns : ns ∈ table doc) (hid : ns.id = id.home) (hmem : (id.name, kind) ∈ ns.declared) :
    ∃ d, Declares doc id d := by
  obtain ⟨_, scalars, unions, models, _, hscalars, hunions, hmodels, _⟩ :=
    ofDocument_eq_ok_iff.mp h
  obtain ⟨s, hs, rfl⟩ := List.mem_map.mp hns
  obtain ⟨home, name⟩ := id
  change s.id = home at hid
  subst hid
  rw [declared_declare] at hmem
  rcases mem_known_iff.mp hs with hsite | rfl
  · obtain ⟨around, hscope⟩ := mem_sites_iff.mp hsite
    rw [mem_declared_iff] at hmem
    cases kind with
    | model =>
      obtain ⟨m, hm, hn⟩ := hmem
      obtain ⟨d, hd⟩ := exists_of_resolveAll hmodels hscope hm hn.symm
      exact ⟨d, .model hscope hm hn.symm hd⟩
    | enum =>
      obtain ⟨e, he, hn⟩ := hmem
      exact ⟨_, .enum hscope he hn.symm⟩
    | union =>
      obtain ⟨u, hu, hn⟩ := hmem
      obtain ⟨d, hd⟩ := exists_of_resolveAll hunions hscope hu hn.symm
      exact ⟨d, .union hscope hu hn.symm hd⟩
    | scalar =>
      obtain ⟨s, hs, hn⟩ := hmem
      obtain ⟨d, hd⟩ := exists_of_resolveAll hscalars hscope hs hn.symm
      exact ⟨d, .scalar hscope hs hn.symm hd⟩
  · have hin : Library.scalarId name ∈ Library.declarations.map (·.1) := by
      rw [library_ids]
      exact List.mem_map.mpr ⟨_, hmem, rfl⟩
    obtain ⟨⟨_, d⟩, hentry, rfl⟩ := List.mem_map.mp hin
    exact ⟨d, .builtIn hentry⟩

/-- Names are declared once in the namespaces of the table, the built-in ones included. -/
theorem declare_nodup (hd : doc.Distinct) {s : Site} (hs : s ∈ known doc) :
    (s.declare.declared.map (·.1)).Nodup := by
  rw [declared_declare]
  rcases mem_known_iff.mp hs with hsite | rfl
  · obtain ⟨around, hscope⟩ := mem_sites_iff.mp hsite
    exact hd s.id s.content around hscope
  · decide

/-- No identity occurs twice in a document in which no name does. -/
theorem allIds_nodup (hd : doc.Distinct) : (allIds doc).Nodup := by
  rw [(allIds_perm_declIds doc).nodup_iff]
  have hids : ((table doc).map (·.id)).Nodup := by
    rw [table, List.map_map]
    exact known_ids_nodup doc
  refine declIds_nodup hids fun ns hns => ?_
  obtain ⟨s, hs, rfl⟩ := List.mem_map.mp hns
  exact declare_nodup hd hs

/-! ## Bases -/

/-- The base of a model is found as a model. -/
theorem base_of_model {enums : Enums} {place : Place} {written : Document.Model} {m : Model}
    {base : DeclId} (h : Load.model enums place written = .ok (.model m))
    (hbase : m.base = some base) :
    ∃ ns ∈ place.namespaces, ns.id = base.home ∧ (base.name, .model) ∈ ns.declared := by
  obtain ⟨base', _, _, hresolved, _, _, heq⟩ := model_eq_ok_iff.mp h
  cases heq
  change base' = some base at hbase
  subst hbase
  obtain ⟨_, _, hname⟩ := exists_of_resolveOptional hresolved
  exact listed_of_declarationOf hname

/-- The base of a scalar is found as a scalar. -/
theorem base_of_scalar {place : Place} {written : Document.Scalar} {s : Scalar} {base : DeclId}
    (h : Load.scalar place written = .ok (.scalar s)) (hbase : s.base = some base) :
    ∃ ns ∈ place.namespaces, ns.id = base.home ∧ (base.name, .scalar) ∈ ns.declared := by
  obtain ⟨base', hresolved, heq⟩ := scalar_eq_ok_iff.mp h
  cases heq
  change base' = some base at hbase
  subst hbase
  obtain ⟨_, _, hname⟩ := exists_of_resolveOptional hresolved
  exact listed_of_declarationOf hname

end

end Load

/-! ## Coherence -/

/-- The namespaces and the declarations of a program go together. -/
structure Graph.Coherent (g : Graph) : Prop where
  /-- No namespace stands twice. -/
  ids_nodup : (g.namespaces.map (·.id)).Nodup
  /-- No name is declared twice in a namespace. -/
  names_nodup : ∀ ns ∈ g.namespaces, (ns.declared.map (·.1)).Nodup
  /-- The names in the namespaces are those with a declaration, which is of their kind. -/
  declared_iff : ∀ id kind, (∃ d, g.declaration? id = some d ∧ d.kind = kind) ↔
    ∃ ns ∈ g.namespaces, ns.id = id.home ∧ (id.name, kind) ∈ ns.declared
  /-- The base of a model is a model. -/
  base_model : ∀ id m base, g.model? id = some m → m.base = some base →
    ∃ b, g.model? base = some b

namespace Graph

variable {doc : Document} {g : Graph} {id : DeclId}

/-- **A loaded program is coherent.** -/
theorem coherent_of_ofDocument (h : Graph.ofDocument doc = .ok g) : g.Coherent := by
  have hd : doc.Distinct := (Load.ofDocument_eq_ok_iff.mp h).1
  have hnamespaces : g.namespaces = Load.table doc := Load.namespaces_of_ofDocument h
  have hids : (g.namespaces.map (·.id)).Nodup := by
    rw [Load.map_id_namespaces h]
    exact Load.known_ids_nodup doc
  have hnames : ∀ ns ∈ g.namespaces, (ns.declared.map (·.1)).Nodup := by
    intro ns hns
    rw [hnamespaces] at hns
    obtain ⟨s, hs, rfl⟩ := List.mem_map.mp hns
    exact Load.declare_nodup hd hs
  have hdeclared : ∀ id kind, (∃ d, g.declaration? id = some d ∧ d.kind = kind) ↔
      ∃ ns ∈ g.namespaces, ns.id = id.home ∧ (id.name, kind) ∈ ns.declared := by
    intro id kind
    refine ⟨fun hdeclaration => ?_, fun htable => ?_⟩
    · obtain ⟨d, hlookup, rfl⟩ := hdeclaration
      have hmem := mem_declarations_of_declaration? hlookup
      rw [hnamespaces]
      exact ((Load.mem_declarations_iff h).mp hmem).mem_table
    · obtain ⟨ns, hns, hid, hmem⟩ := htable
      obtain ⟨d, hdeclares⟩ := Load.exists_declares h (hnamespaces ▸ hns) hid hmem
      obtain ⟨d', hlookup⟩ :=
        exists_declaration?_of_mem ((Load.mem_declarations_iff h).mpr hdeclares)
      refine ⟨d', hlookup, ?_⟩
      have hdeclares' := (Load.mem_declarations_iff h).mp (mem_declarations_of_declaration? hlookup)
      obtain ⟨ns', hns', hid', hmem'⟩ := hdeclares'.mem_table
      rw [← hnamespaces] at hns'
      have hsame : ns' = ns := List.inj_on_of_nodup_map hids hns' hns (hid'.trans hid.symm)
      subst hsame
      exact (Prod.mk.inj (List.inj_on_of_nodup_map (hnames ns' hns) hmem' hmem rfl)).2
  refine ⟨hids, hnames, hdeclared, fun id m base hmodel hbase => ?_⟩
  have hmem := mem_declarations_of_declaration? (model?_eq_some_iff.mp hmodel)
  have hfound : ∃ ns ∈ g.namespaces, ns.id = base.home ∧ (base.name, .model) ∈ ns.declared := by
    rw [hnamespaces]
    cases (Load.mem_declarations_iff h).mp hmem with
    | builtIn hin => cases Load.kind_of_builtIn hin
    | scalar _ _ _ hok => cases Load.kind_of_scalar hok
    | union _ _ _ hok => cases Load.kind_of_union hok
    | model _ _ _ hok => exact Load.base_of_model hok hbase
  obtain ⟨d, hd, hkind⟩ := (hdeclared base .model).mpr hfound
  cases d with
  | model b => exact ⟨b, model?_eq_some_iff.mpr hd⟩
  | enum | union | scalar => cases hkind

/-- No two declarations have one identity. -/
theorem ids_nodup_of_ofDocument (h : Graph.ofDocument doc = .ok g) :
    (g.declarations.map (·.1)).Nodup := by
  rw [Load.ids_eq_allIds h]
  exact Load.allIds_nodup (Load.ofDocument_eq_ok_iff.mp h).1

/-- Looking an identity up finds what is declared under it. -/
theorem declaration?_eq_some_iff (h : Graph.ofDocument doc = .ok g) {d : Declaration} :
    g.declaration? id = some d ↔ Load.Declares doc id d :=
  (Keyed.lookup_eq_some_iff_mem (ids_nodup_of_ofDocument h)).trans (Load.mem_declarations_iff h)

/-- Only the built-in scalars are reserved where nothing that is written is. -/
theorem isReserved_eq_false_of_ofDocument (h : Graph.ofDocument doc = .ok g)
    (hopen : ∀ home scope, doc.Scope home scope → home.isReserved = false) {d : Declaration}
    (hd : g.declaration? id = some d) (hkind : d.kind ≠ .scalar) : id.isReserved = false := by
  cases (Load.mem_declarations_iff h).mp (mem_declarations_of_declaration? hd) with
  | builtIn hin => exact absurd (Load.kind_of_builtIn hin) hkind
  | enum hs | scalar hs | union hs | model hs => exact hopen id.home _ hs

end Graph

end ApiEmit
