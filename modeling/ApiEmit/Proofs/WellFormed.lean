/-
ApiEmit.Proofs.WellFormed — a loaded program refers to nothing that it does not have.

`Graph.Stores` lists the identities of declarations that stand anywhere in a program, at any depth
of a type, and `Graph.StoresNamespace` those of namespaces. In a well-formed program each of them
can be looked up, bases and defaults are of the kinds that they are used as, and the namespaces
are a tree. That a loaded program is well formed is put together from what each resolving function
gives.
-/
import ApiEmit.Graph.Query
import ApiEmit.Proofs.Loaded

namespace ApiEmit

namespace Graph

/-! ## What stands in a program -/

/-- A type that stands in a program. -/
inductive Holds (g : Graph) : Ty → Prop
  | declared {id : DeclId} {d : Declaration} {t : Ty} (hd : (id, d) ∈ g.declarations)
      (ht : t ∈ d.types) : Holds g t
  | parameter {op : Operation} {p : Parameter} (ho : op ∈ g.operations) (hp : p ∈ op.parameters) :
      Holds g p.type
  | request {op : Operation} {b : Body} (ho : op ∈ g.operations) (hb : op.body = some b) :
      Holds g b.type
  | response {op : Operation} {r : Response} {b : Body} (ho : op ∈ g.operations)
      (hr : r ∈ op.responses) (hb : b ∈ r.bodies) : Holds g b.type

/-- An identity of a declaration that stands in a program. -/
inductive Stores (g : Graph) : DeclId → Prop
  | listed {ns : Namespace} {id : DeclId} (hns : ns ∈ g.namespaces) (h : id ∈ ns.declIds) :
      Stores g id
  | declared {id : DeclId} {d : Declaration} (hd : (id, d) ∈ g.declarations) : Stores g id
  | referred {t : Ty} {id : DeclId} (ht : g.Holds t) (h : t.Contains (.ref id)) : Stores g id
  | modelBase {id base : DeclId} {m : Model} (hm : (id, .model m) ∈ g.declarations)
      (h : m.base = some base) : Stores g base
  | scalarBase {id base : DeclId} {s : Scalar} (hs : (id, .scalar s) ∈ g.declarations)
      (h : s.base = some base) : Stores g base
  | default {id enum : DeclId} {m : Model} {p : Property} {index : Nat}
      (hm : (id, .model m) ∈ g.declarations) (hp : p ∈ m.properties)
      (h : p.default = some (.member enum index)) : Stores g enum

/-- An identity of a namespace that stands in a program. -/
inductive StoresNamespace (g : Graph) : NamespaceId → Prop
  | listed {ns : Namespace} (hns : ns ∈ g.namespaces) : StoresNamespace g ns.id
  | parent {ns : Namespace} {id : NamespaceId} (hns : ns ∈ g.namespaces)
      (h : ns.id.parent? = some id) : StoresNamespace g id
  | declaration {id : DeclId} (h : g.Stores id) : StoresNamespace g id.home
  | operation {op : Operation} (ho : op ∈ g.operations) : StoresNamespace g op.home

/-- The namespaces right below a namespace, in their order. -/
def childrenOf (g : Graph) (id : NamespaceId) : List NamespaceId :=
  (g.namespaces.map (·.id)).filter (·.parent? == some id)

/-- A program that refers to nothing that it does not have. -/
structure WellFormed (g : Graph) : Prop extends g.Coherent where
  /-- No identity is declared twice. -/
  declarations_nodup : (g.declarations.map (·.1)).Nodup
  /-- Every declaration that is referred to is there. -/
  stored : ∀ id, g.Stores id → ∃ d, g.declaration? id = some d
  /-- Every namespace that is referred to is there. -/
  namespace_stored : ∀ id, g.StoresNamespace id → ∃ ns, g.namespace? id = some ns
  /-- Every namespace is reached from the global one by way of children. -/
  reached : ∀ ns ∈ g.namespaces,
    Relation.ReflTransGen (fun parent id => id ∈ g.childrenOf parent) .root ns.id
  /-- The namespaces share out the operations. -/
  operations_perm : (g.namespaces.flatMap fun ns => g.operationsIn ns.id).Perm g.operations
  /-- The base of a scalar is a scalar. -/
  base_scalar : ∀ id s base, g.scalar? id = some s → s.base = some base →
    ∃ b, g.scalar? base = some b
  /-- A default that is a member of an enum is one of the enum that the property is of. -/
  default_member : ∀ id m, g.model? id = some m → ∀ p ∈ m.properties, ∀ enum index,
    p.default = some (.member enum index) →
      p.type = .ref enum ∧ ∃ e member, g.enum? enum = some e ∧ e.members[index]? = some member

end Graph

namespace Load

variable {doc : Document} {g : Graph} {id : DeclId}

/-! ## References -/

/-- An expression stands for a type, in some place among the namespaces. -/
def IsWritten (namespaces : List Namespace) (t : Ty) : Prop :=
  ∃ place : Place, place.namespaces = namespaces ∧ ∃ e, place.type e = .ok t

theorem IsWritten.listed {namespaces : List Namespace} {t : Ty} (h : IsWritten namespaces t)
    (hr : t.Contains (.ref id)) :
    ∃ kind, ∃ ns ∈ namespaces, ns.id = id.home ∧ (id.name, kind) ∈ ns.declared := by
  obtain ⟨place, rfl, _, htype⟩ := h
  exact listed_of_type htype hr

/-- The types of a declaration are written in it, but for the base of a model, which is named. -/
theorem Declares.isWritten_or_base {d : Declaration} (hd : Declares doc id d) {t : Ty}
    (ht : t ∈ d.types) : IsWritten (table doc) t ∨
      ∃ base, t = .ref base ∧
        ∃ ns ∈ table doc, ns.id = base.home ∧ (base.name, .model) ∈ ns.declared := by
  cases hd with
  | builtIn h =>
    obtain ⟨_, _, heq⟩ := List.mem_map.mp h
    cases heq
    cases ht
  | enum => cases ht
  | scalar _ _ _ h =>
    obtain ⟨_, _, rfl⟩ := scalar_eq_ok_iff.mp h
    cases ht
  | union _ _ _ h =>
    obtain ⟨variants, hvariants, rfl⟩ := union_eq_ok_iff.mp h
    obtain ⟨v, hv, rfl⟩ := List.mem_map.mp ht
    obtain ⟨written, _, hresolved⟩ := (mem_mapM_iff hvariants).mp hv
    obtain ⟨type, htype, heq⟩ := bind_eq_ok_iff.mp hresolved
    cases heq
    exact .inl ⟨_, rfl, _, htype⟩
  | model _ _ _ h =>
    obtain ⟨base, indexer, properties, hbase, hindexer, hproperties, rfl⟩ := model_eq_ok_iff.mp h
    rcases List.mem_append.mp ht with ht | ht
    · rcases List.mem_append.mp ht with ht | ht
      · obtain ⟨p, hp, rfl⟩ := List.mem_map.mp ht
        obtain ⟨written, _, hresolved⟩ := (mem_mapM_iff hproperties).mp (Keyed.mem_of_mem_ofList hp)
        obtain ⟨type, htype, rfl⟩ := property_eq_ok_iff.mp hresolved
        exact .inl ⟨_, rfl, _, htype⟩
      · obtain ⟨b, rfl, rfl⟩ := Option.map_eq_some_iff.mp (Option.mem_toList.mp ht)
        obtain ⟨_, _, hname⟩ := exists_of_resolveOptional hbase
        exact .inr ⟨b, rfl, listed_of_declarationOf hname⟩
    · obtain rfl : indexer = some t := Option.mem_toList.mp ht
      obtain ⟨_, _, htype⟩ := exists_of_resolveOptional hindexer
      exact .inl ⟨_, rfl, _, htype⟩

/-- An operation is declared where it says. -/
theorem home_of_operation {namespaces : List Namespace} {home : NamespaceId}
    {interface : Option String} {written : Document.Operation} {op : Operation}
    (h : operation namespaces home interface written = .ok op) : op.home = home := by
  obtain ⟨_, _, _, _, _, _, rfl⟩ := operation_eq_ok_iff.mp h
  rfl

/-- The operations of a program are those of its document, resolved where they stand. -/
theorem exists_of_mem_operations (h : Graph.ofDocument doc = .ok g) {op : Operation}
    (hop : op ∈ g.operations) : ∃ ns around, Document.Scope doc op.home (ns :: around) ∧
      ∃ interface written, operation (table doc) op.home interface written = .ok op := by
  obtain ⟨_, _, _, _, operations, _, _, _, hoperations, rfl⟩ := ofDocument_eq_ok_iff.mp h
  obtain ⟨⟨home, interface, written⟩, hmem, hresolved⟩ := (mem_mapM_iff hoperations).mp hop
  obtain ⟨⟨ns, around⟩, hscope, _⟩ := mem_operations_iff.mp hmem
  obtain rfl : op.home = home := home_of_operation hresolved
  exact ⟨ns, around, hscope, interface, written, hresolved⟩

/-- The types of an operation are written in it. -/
theorem isWritten_of_operation {namespaces : List Namespace} {home : NamespaceId}
    {interface : Option String} {written : Document.Operation} {op : Operation}
    (h : operation namespaces home interface written = .ok op) {t : Ty}
    (ht : (∃ p ∈ op.parameters, p.type = t) ∨ (∃ b, op.body = some b ∧ b.type = t) ∨
      ∃ r ∈ op.responses, ∃ b ∈ r.bodies, b.type = t) : IsWritten namespaces t := by
  obtain ⟨parameters, payload, responses, hparameters, hpayload, hresponses, rfl⟩ :=
    operation_eq_ok_iff.mp h
  obtain ⟨p, hp, rfl⟩ | ⟨b, rfl, rfl⟩ | ⟨r, hmem, b, hb, rfl⟩ := ht
  · obtain ⟨_, _, hresolved⟩ := (mem_mapM_iff hparameters).mp hp
    obtain ⟨type, htype, heq⟩ := bind_eq_ok_iff.mp hresolved
    cases heq
    exact ⟨_, rfl, _, htype⟩
  · obtain ⟨_, _, hresolved⟩ := exists_of_resolveOptional hpayload
    obtain ⟨type, htype, rfl⟩ := body_eq_ok_iff.mp hresolved
    exact ⟨_, rfl, _, htype⟩
  · obtain ⟨_, _, hresolved⟩ := (mem_mapM_iff hresponses).mp hmem
    obtain ⟨bodies, hbodies, heq⟩ := bind_eq_ok_iff.mp hresolved
    cases heq
    obtain ⟨_, _, hbody⟩ := (mem_mapM_iff hbodies).mp hb
    obtain ⟨type, htype, rfl⟩ := body_eq_ok_iff.mp hbody
    exact ⟨_, rfl, _, htype⟩

/-- The built-in scalars restrict built-in scalars. -/
theorem builtIn_base_mem : ∀ entry ∈ Library.scalars, ∀ base, entry.2 = some base →
    (base, Kind.scalar) ∈ Library.namespaceEntry.declared := by
  decide

/-- The base of a scalar is declared as a scalar. -/
theorem Declares.listed_of_base {s : Scalar} (hd : Declares doc id (.scalar s)) {base : DeclId}
    (hbase : s.base = some base) :
    ∃ ns ∈ table doc, ns.id = base.home ∧ (base.name, .scalar) ∈ ns.declared := by
  cases hd with
  | builtIn h =>
    obtain ⟨entry, hentry, heq⟩ := List.mem_map.mp h
    cases heq
    obtain ⟨name, hname, rfl⟩ := Option.map_eq_some_iff.mp hbase
    refine ⟨Library.namespaceEntry, ?_, rfl, ?_⟩
    · rw [table_eq]
      exact List.mem_cons_of_mem _ List.mem_cons_self
    · exact builtIn_base_mem entry hentry name hname
  | scalar _ _ _ h => exact base_of_scalar h hbase
  | union _ _ _ h => cases kind_of_union h
  | model _ _ _ h => cases kind_of_model h

/-- A default that is a member of an enum is one of an enum that is declared. -/
theorem Declares.enum_of_default {m : Model} (hd : Declares doc id (.model m)) {p : Property}
    (hp : p ∈ m.properties) {enum : DeclId} {index : Nat}
    (hdefault : p.default = some (.member enum index)) :
    p.type = .ref enum ∧ ∃ e, Declares doc enum (.enum e) ∧ index < e.members.length := by
  cases hd with
  | builtIn h => cases kind_of_builtIn h
  | scalar _ _ _ h => cases kind_of_scalar h
  | union _ _ _ h => cases kind_of_union h
  | model _ _ _ h =>
    obtain ⟨_, _, properties, _, _, hproperties, heq⟩ := model_eq_ok_iff.mp h
    cases heq
    obtain ⟨written, _, hresolved⟩ := (mem_mapM_iff hproperties).mp (Keyed.mem_of_mem_ofList hp)
    obtain ⟨type, _, rfl⟩ := property_eq_ok_iff.mp hresolved
    obtain ⟨value, _, hvalue⟩ := Option.bind_eq_some_iff.mp hdefault
    obtain ⟨htype, e, he, hindex⟩ := member_of_defaultOf? hvalue
    obtain ⟨_, _, hscope, written, hwritten, hname, rfl⟩ := mem_enumsOf_iff.mp he
    exact ⟨htype, _, .enum hscope hwritten hname, hindex⟩

/-- Of several properties with one name a model keeps one. -/
theorem Declares.names_nodup {m : Model} (hd : Declares doc id (.model m)) :
    (m.properties.map (·.name)).Nodup := by
  cases hd with
  | builtIn h => cases kind_of_builtIn h
  | scalar _ _ _ h => cases kind_of_scalar h
  | union _ _ _ h => cases kind_of_union h
  | model _ _ _ h =>
    obtain ⟨_, _, properties, _, _, _, heq⟩ := model_eq_ok_iff.mp h
    cases heq
    rw [Keyed.map_ofList]
    exact Keyed.keysOf_nodup _ _

/-! ## Namespaces -/

theorem exists_stands_of_mem_known {s : Site} (hs : s ∈ known doc) :
    ∃ around, Stands doc s.id (s.content :: around) := by
  rcases mem_known_iff.mp hs with hsite | rfl
  · obtain ⟨around, hscope⟩ := mem_sites_iff.mp hsite
    exact ⟨around, .inl hscope⟩
  · exact ⟨[doc.root], .inr ⟨rfl, rfl⟩⟩

theorem ids_childSites (home : NamespaceId) (first : Nat) (children : List Document.Namespace) :
    (childSites home first children).map (·.id) =
      children.mapIdx fun i c => home.child (first + i) c.name := by
  induction children generalizing first with
  | nil => rfl
  | cons c rest ih =>
    rw [childSites, List.map_cons, ih, List.mapIdx_cons]
    simp only [Nat.add_zero, Nat.add_assoc, Nat.add_comm 1]

/-- The namespaces of a program are the places of its document, and what is listed in them is what
is declared there. -/
theorem mem_namespaces_iff (h : Graph.ofDocument doc = .ok g) {ns : Namespace} :
    ns ∈ g.namespaces ↔ ∃ content around, Stands doc ns.id (content :: around) ∧
      ns = (⟨ns.id, content⟩ : Site).declare := by
  rw [namespaces_of_ofDocument h]
  constructor
  · intro hns
    obtain ⟨s, hs, rfl⟩ := List.mem_map.mp hns
    obtain ⟨around, hstands⟩ := exists_stands_of_mem_known hs
    exact ⟨s.content, around, hstands, rfl⟩
  · rintro ⟨content, around, hstands, heq⟩
    rw [heq]
    exact List.mem_map_of_mem hstands.mem_known

theorem namespace?_eq_some_iff (h : Graph.ofDocument doc = .ok g) {home : NamespaceId}
    {ns : Namespace} :
    g.namespace? home = some ns ↔ ∃ content around, Stands doc home (content :: around) ∧
      ns = (⟨home, content⟩ : Site).declare := by
  have hids : (g.namespaces.map (·.id)).Nodup := (Graph.coherent_of_ofDocument h).ids_nodup
  constructor
  · intro hfound
    have hns : ns ∈ g.namespaces := List.mem_of_find?_eq_some hfound
    obtain rfl : ns.id = home := by simpa using List.find?_some hfound
    exact (mem_namespaces_iff h).mp hns
  · rintro ⟨content, around, hstands, rfl⟩
    have hns : (⟨home, content⟩ : Site).declare ∈ g.namespaces :=
      (mem_namespaces_iff h).mpr ⟨content, around, hstands, rfl⟩
    exact Keyed.find?_key_eq_some hids hns

/-- The children of a namespace are the sites right below it. -/
theorem childrenOf_eq (h : Graph.ofDocument doc = .ok g) (home : NamespaceId) :
    g.childrenOf home = (sitesIn home (known doc)).map (·.id) := by
  unfold Graph.childrenOf sitesIn
  rw [namespaces_of_ofDocument h, table, List.map_map, List.filter_map]
  rfl

/-- The children of a namespace are those of the document, in their order. -/
theorem childrenOf_of_stands (h : Graph.ofDocument doc = .ok g) {home : NamespaceId}
    {scope : List Document.Namespace} (hstands : Stands doc home scope) :
    ∃ first, g.childrenOf home =
      (Document.children scope).mapIdx fun i c => home.child (first + i) c.name := by
  obtain ⟨first, hsites, _⟩ := hstands.sitesIn_known
  exact ⟨first, by rw [childrenOf_eq h, hsites, ids_childSites]⟩

end Load

namespace Graph

variable {doc : Document} {g : Graph}

/-! ## A loaded program -/

/-- What a loaded program holds is written in its document, but for the bases of models, which are
named. -/
theorem Holds.isWritten_or_base {t : Ty} (h : Graph.ofDocument doc = .ok g) (ht : g.Holds t) :
    Load.IsWritten g.namespaces t ∨ ∃ base, t = .ref base ∧
      ∃ ns ∈ g.namespaces, ns.id = base.home ∧ (base.name, .model) ∈ ns.declared := by
  rw [Load.namespaces_of_ofDocument h]
  cases ht with
  | declared hd ht => exact ((Load.mem_declarations_iff h).mp hd).isWritten_or_base ht
  | parameter ho hp =>
    obtain ⟨_, _, _, _, _, hop⟩ := Load.exists_of_mem_operations h ho
    exact .inl (Load.isWritten_of_operation hop (.inl ⟨_, hp, rfl⟩))
  | request ho hb =>
    obtain ⟨_, _, _, _, _, hop⟩ := Load.exists_of_mem_operations h ho
    exact .inl (Load.isWritten_of_operation hop (.inr (.inl ⟨_, hb, rfl⟩)))
  | response ho hmem hb =>
    obtain ⟨_, _, _, _, _, hop⟩ := Load.exists_of_mem_operations h ho
    exact .inl (Load.isWritten_of_operation hop (.inr (.inr ⟨_, hmem, _, hb, rfl⟩)))

theorem Holds.listed {t : Ty} {id : DeclId} (h : Graph.ofDocument doc = .ok g) (ht : g.Holds t)
    (hr : t.Contains (.ref id)) :
    ∃ kind, ∃ ns ∈ g.namespaces, ns.id = id.home ∧ (id.name, kind) ∈ ns.declared := by
  rcases ht.isWritten_or_base h with hwritten | ⟨base, rfl, hlisted⟩
  · exact hwritten.listed hr
  · rw [TypeExpr.ref_contains_iff, TypeExpr.ref.injEq] at hr
    subst hr
    exact ⟨.model, hlisted⟩

/-- Whatever is referred to in a loaded program is declared in one of its namespaces. -/
theorem Stores.listed_of_ofDocument {id : DeclId} (h : Graph.ofDocument doc = .ok g)
    (hs : g.Stores id) :
    ∃ kind, ∃ ns ∈ g.namespaces, ns.id = id.home ∧ (id.name, kind) ∈ ns.declared := by
  have hdeclares : ∀ {id d}, (id, d) ∈ g.declarations → Load.Declares doc id d :=
    (Load.mem_declarations_iff h).mp
  have hnamespaces : g.namespaces = Load.table doc := Load.namespaces_of_ofDocument h
  cases hs with
  | @listed ns _ hns hid =>
    obtain ⟨⟨name, kind⟩, hmem, rfl⟩ := List.mem_map.mp hid
    exact ⟨kind, ns, hns, rfl, hmem⟩
  | declared hd =>
    rw [hnamespaces]
    exact ⟨_, (hdeclares hd).mem_table⟩
  | referred ht hr => exact ht.listed h hr
  | @modelBase _ _ m hm hbase =>
    have htype : TypeExpr.ref id ∈ (Declaration.model m).types := by
      simp [Declaration.types, hbase]
    exact (Holds.declared hm htype).listed h (TypeExpr.Contains.refl _)
  | scalarBase hscalar hbase =>
    rw [hnamespaces]
    exact ⟨.scalar, (hdeclares hscalar).listed_of_base hbase⟩
  | default hm hp hdefault =>
    obtain ⟨_, e, he, _⟩ := (hdeclares hm).enum_of_default hp hdefault
    rw [hnamespaces]
    exact ⟨_, he.mem_table⟩

/-- Whatever is referred to in a loaded program is there. -/
theorem Stores.exists_declaration {id : DeclId} (h : Graph.ofDocument doc = .ok g)
    (hs : g.Stores id) : ∃ d, g.declaration? id = some d := by
  obtain ⟨kind, hlisted⟩ := hs.listed_of_ofDocument h
  obtain ⟨d, hd, _⟩ := ((coherent_of_ofDocument h).declared_iff id kind).mpr hlisted
  exact ⟨d, hd⟩

theorem mem_childrenOf_iff {id parent : NamespaceId} :
    id ∈ g.childrenOf parent ↔ (∃ ns ∈ g.namespaces, ns.id = id) ∧ id.parent? = some parent := by
  simp [childrenOf, List.mem_filter]

/-- The services are at the marked namespaces, in the order of all namespaces. -/
theorem map_home_services (g : Graph) : g.services.map (·.home) =
    (g.namespaces.filter (·.service.isSome)).map (·.id) := by
  rw [services, List.map_filterMap, ← List.filterMap_eq_map, ← List.filterMap_eq_filter,
    List.filterMap_filterMap]
  refine List.filterMap_congr fun ns _ => ?_
  cases hmark : ns.service <;> simp [Option.guard, hmark]

/-- The namespaces of a loaded program are the places of its document. -/
theorem exists_namespace_iff (h : Graph.ofDocument doc = .ok g) {id : NamespaceId} :
    (∃ ns ∈ g.namespaces, ns.id = id) ↔ ∃ scope, Load.Stands doc id scope := by
  constructor
  · rintro ⟨ns, hns, rfl⟩
    obtain ⟨content, around, hstands, _⟩ := (Load.mem_namespaces_iff h).mp hns
    exact ⟨_, hstands⟩
  · rintro ⟨scope, hstands⟩
    obtain ⟨content, around, rfl⟩ := hstands.exists_cons
    have hns : (⟨id, content⟩ : Load.Site).declare ∈ g.namespaces :=
      (Load.mem_namespaces_iff h).mpr ⟨content, around, hstands, rfl⟩
    exact ⟨_, hns, rfl⟩

/-- The place around a place is one. -/
theorem stands_parent {id parent : NamespaceId} {scope : List Document.Namespace}
    (hs : Load.Stands doc id scope) (hparent : id.parent? = some parent) :
    ∃ outer, Load.Stands doc parent outer := by
  rcases hs with hscope | ⟨rfl, rfl⟩
  · cases hscope with
    | root => cases hparent
    | child houter _ =>
      rw [NamespaceId.parent?_child, Option.some.injEq] at hparent
      exact ⟨_, .inl (hparent ▸ houter)⟩
  · cases hparent
    exact ⟨_, .inl .root⟩

/-- Every namespace lies below the global one, by induction on how deep it is nested. -/
theorem reached_of_stands (h : Graph.ofDocument doc = .ok g) {id : NamespaceId}
    {scope : List Document.Namespace} (hs : Load.Stands doc id scope) :
    Relation.ReflTransGen (fun parent id => id ∈ g.childrenOf parent) .root id := by
  have hchild : ∀ {id parent scope}, Load.Stands doc id scope → id.parent? = some parent →
      id ∈ g.childrenOf parent := fun hs hparent =>
    mem_childrenOf_iff.mpr ⟨(exists_namespace_iff h).mpr ⟨_, hs⟩, hparent⟩
  rcases hs with hscope | ⟨rfl, rfl⟩
  · induction hscope with
    | root => exact .refl
    | child houter hc ih => exact .tail ih (hchild (.inl (houter.child hc)) rfl)
  · exact .single (hchild (.inr ⟨rfl, rfl⟩) rfl)

/-- A loaded operation stands in a namespace of the program. -/
theorem exists_home_of_mem_operations (h : Graph.ofDocument doc = .ok g) {op : Operation}
    (hop : op ∈ g.operations) : ∃ ns ∈ g.namespaces, ns.id = op.home := by
  obtain ⟨_, _, hscope, _⟩ := Load.exists_of_mem_operations h hop
  exact (exists_namespace_iff h).mpr ⟨_, .inl hscope⟩

/-- What namespaces stand in a loaded program are namespaces of it. -/
theorem StoresNamespace.exists_of_ofDocument (h : Graph.ofDocument doc = .ok g) {id : NamespaceId}
    (hs : g.StoresNamespace id) : ∃ ns ∈ g.namespaces, ns.id = id := by
  cases hs with
  | listed hns => exact ⟨_, hns, rfl⟩
  | parent hns hparent =>
    obtain ⟨_, hstands⟩ := (exists_namespace_iff h).mp ⟨_, hns, rfl⟩
    exact (exists_namespace_iff h).mpr (stands_parent hstands hparent)
  | declaration hs =>
    obtain ⟨_, ns, hns, hid, _⟩ := hs.listed_of_ofDocument h
    exact ⟨ns, hns, hid⟩
  | operation ho => exact exists_home_of_mem_operations h ho

/-- Each operation of a loaded program stands in one of its namespaces, each of which is there
once. -/
theorem operationsIn_perm (h : Graph.ofDocument doc = .ok g) :
    (g.namespaces.flatMap fun ns => g.operationsIn ns.id).Perm g.operations := by
  have hperm : ((g.namespaces.map (·.id)).flatMap g.operationsIn).Perm g.operations :=
    Keyed.flatMap_filter_perm (coherent_of_ofDocument h).ids_nodup fun op hop =>
      List.mem_map.mpr (exists_home_of_mem_operations h hop)
  rwa [List.flatMap_map] at hperm

/-- The base of a loaded scalar is a scalar. -/
theorem exists_scalar_of_base (h : Graph.ofDocument doc = .ok g) {id base : DeclId} {s : Scalar}
    (hscalar : g.scalar? id = some s) (hbase : s.base = some base) :
    ∃ b, g.scalar? base = some b := by
  have hdeclares := (declaration?_eq_some_iff h).mp (scalar?_eq_some_iff.mp hscalar)
  have hlisted := hdeclares.listed_of_base hbase
  rw [← Load.namespaces_of_ofDocument h] at hlisted
  obtain ⟨d, hd, hkind⟩ := ((coherent_of_ofDocument h).declared_iff base .scalar).mpr hlisted
  cases d with
  | scalar b => exact ⟨b, scalar?_eq_some_iff.mpr hd⟩
  | model | enum | union => cases hkind

/-- A default that is a member of an enum is one of the enum that the loaded property is of. -/
theorem exists_member_of_default (h : Graph.ofDocument doc = .ok g) {id enum : DeclId} {m : Model}
    {p : Property} {index : Nat} (hm : g.model? id = some m) (hp : p ∈ m.properties)
    (hdefault : p.default = some (.member enum index)) :
    p.type = .ref enum ∧ ∃ e member, g.enum? enum = some e ∧ e.members[index]? = some member := by
  have hdeclares := (declaration?_eq_some_iff h).mp (model?_eq_some_iff.mp hm)
  obtain ⟨htype, e, he, hindex⟩ := hdeclares.enum_of_default hp hdefault
  exact ⟨htype, e, e.members[index], enum?_eq_some_iff.mpr ((declaration?_eq_some_iff h).mpr he),
    List.getElem?_eq_getElem hindex⟩

/-- No two properties of a loaded model have one name. -/
theorem propertyNames_nodup (h : Graph.ofDocument doc = .ok g) {id : DeclId} {m : Model}
    (hm : g.model? id = some m) : (m.properties.map (·.name)).Nodup :=
  ((declaration?_eq_some_iff h).mp (model?_eq_some_iff.mp hm)).names_nodup

/-- **A loaded program is well formed**, and its namespaces are those of its document, each with
the same children in the same order. -/
theorem wellFormed_of_ofDocument (h : Graph.ofDocument doc = .ok g) :
    g.WellFormed ∧
    (∀ id ns, g.namespace? id = some ns ↔ ∃ content around,
      Load.Stands doc id (content :: around) ∧ ns = (⟨id, content⟩ : Load.Site).declare) ∧
    ∀ id scope, Load.Stands doc id scope → ∃ first, g.childrenOf id =
      (Document.children scope).mapIdx fun i c => id.child (first + i) c.name := by
  have hcoherent := coherent_of_ofDocument h
  refine ⟨{ toCoherent := hcoherent
            declarations_nodup := ids_nodup_of_ofDocument h
            stored := fun id hs => hs.exists_declaration h
            namespace_stored := fun id hs => ?namespace_stored
            reached := fun ns hns => ?reached
            operations_perm := operationsIn_perm h
            base_scalar := fun id s base => exists_scalar_of_base h
            default_member := fun id m hm p hp enum index => exists_member_of_default h hm hp },
          fun id ns => Load.namespace?_eq_some_iff h, fun id scope => Load.childrenOf_of_stands h⟩
  case namespace_stored =>
    obtain ⟨ns, hns, rfl⟩ := hs.exists_of_ofDocument h
    exact ⟨ns, Keyed.find?_key_eq_some hcoherent.ids_nodup hns⟩
  case reached =>
    obtain ⟨_, hstands⟩ := (exists_namespace_iff h).mp ⟨ns, hns, rfl⟩
    exact reached_of_stands h hstands

end Graph

end ApiEmit
