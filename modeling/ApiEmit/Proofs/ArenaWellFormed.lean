/-
ApiEmit.Proofs.ArenaWellFormed — a loaded arena holds no index that leads nowhere.

`Arena.Stores` lists the type indices that stand anywhere in an arena, `Arena.StoresNamespace` and
`Arena.StoresOperation` those of namespaces and of operations. In a well-formed arena each of them
leads to an entry, the stored parents and children make a tree, and what a namespace lists is filled
in as what it is listed as. While the passes run this does not hold, as placeholders stand for what
is left to fill in; an arena that is the form of a whole graph has none of them left.
-/
import ApiEmit.Proofs.ArenaRefines
import ApiEmit.Proofs.WellFormed

namespace ApiEmit.Arena

/-! ## What stands in an arena -/

/-- A type index that stands in an arena. -/
inductive Stores (a : Arena) : TypeIndex → Prop
  | listed {ns : Namespace} {kind : Kind} {i : TypeIndex} (hns : ns ∈ a.namespaces)
      (h : i ∈ ns.listed kind) : Stores a i
  | declared {ns : Namespace} {entry : String × TypeIndex} (hns : ns ∈ a.namespaces)
      (h : entry ∈ ns.declared) : Stores a entry.2
  | property {m : Model} {p : Property} (hm : .model m ∈ a.types) (h : p ∈ m.properties) :
      Stores a p.type
  | default {m : Model} {p : Property} {enum : TypeIndex} {index : Nat} (hm : .model m ∈ a.types)
      (hp : p ∈ m.properties) (h : p.default = some (.member enum index)) : Stores a enum
  | modelBase {m : Model} {base : TypeIndex} (hm : .model m ∈ a.types) (h : m.base = some base) :
      Stores a base
  | indexer {m : Model} {indexer : Indexer} (hm : .model m ∈ a.types)
      (h : m.indexer = some indexer) : Stores a indexer.value
  | scalarBase {s : Scalar} {base : TypeIndex} (hs : .scalar s ∈ a.types) (h : s.base = some base) :
      Stores a base
  | variant {u : Union} {v : Variant} (hu : .union u ∈ a.types) (h : v ∈ u.variants) :
      Stores a v.type
  | parameter {op : Operation} {p : Parameter} (hop : op ∈ a.operations)
      (h : p ∈ op.parameters) : Stores a p.type
  | request {op : Operation} {b : Body} (hop : op ∈ a.operations) (h : op.body = some b) :
      Stores a b.type
  | response {op : Operation} {r : Response} {b : Body} (hop : op ∈ a.operations)
      (hr : r ∈ op.responses) (h : b ∈ r.bodies) : Stores a b.type

/-- A namespace index that stands in an arena. -/
inductive StoresNamespace (a : Arena) : NamespaceIndex → Prop
  | global : StoresNamespace a a.global
  | parent {ns : Namespace} {i : NamespaceIndex} (hns : ns ∈ a.namespaces)
      (h : ns.parent = some i) : StoresNamespace a i
  | child {ns : Namespace} {i : NamespaceIndex} (hns : ns ∈ a.namespaces) (h : i ∈ ns.children) :
      StoresNamespace a i
  | home {node : Node} {i : NamespaceIndex} (hnode : node ∈ a.types) (h : node.home? = some i) :
      StoresNamespace a i
  | container {op : Operation} (hop : op ∈ a.operations) : StoresNamespace a op.container.home

/-- An operation index that stands in an arena. -/
inductive StoresOperation (a : Arena) : OperationIndex → Prop
  | listed {ns : Namespace} {i : OperationIndex} (hns : ns ∈ a.namespaces)
      (h : i ∈ ns.operations) : StoresOperation a i

/-- The name that a node carries as a declaration, which may be empty. -/
def Node.label? : Node → Option String
  | .model m => some m.name
  | .scalar s => some s.name
  | .enum e => some e.name
  | .union u => u.name
  | _ => none

/-- One namespace lies right below another. -/
def IsChild (a : Arena) (outer i : NamespaceIndex) : Prop :=
  ∃ ns, a.namespace? outer = some ns ∧ i ∈ ns.children

/-- An arena in which every index can be followed. -/
structure WellFormed (a : Arena) : Prop where
  types : ∀ i, a.Stores i → ∃ node, a.type? i = some node
  namespaces : ∀ i, a.StoresNamespace i → ∃ ns, a.namespace? i = some ns
  operations : ∀ i, a.StoresOperation i → ∃ op, a.operation? i = some op
  /-- Only the global namespace has none around it. -/
  root_iff : ∀ i ns, a.namespace? i = some ns → (ns.parent = none ↔ i = a.global)
  /-- A namespace is a child of the one around it and of no other. -/
  parent_iff : ∀ i ns outer, a.namespace? i = some ns →
    (ns.parent = some outer ↔ a.IsChild outer i)
  children_nodup : ∀ ns ∈ a.namespaces, ns.children.Nodup
  /-- A namespace stands behind the one around it. -/
  parent_lt : ∀ i ns outer, a.namespace? i = some ns → ns.parent = some outer →
    outer.position < i.position
  /-- Every namespace is reached from the global one by way of children. -/
  reached : ∀ i ns, a.namespace? i = some ns → Relation.ReflTransGen a.IsChild a.global i
  /-- What a namespace lists is of the kind that it is listed as, carries the namespace and the
  name under which it is declared there, and is no placeholder. -/
  listed : ∀ home ns, a.namespace? home = some ns → ∀ kind, ∀ i ∈ ns.listed kind,
    ∃ node name, a.type? i = some node ∧ node.kind? = some kind ∧ node.home? = some home ∧
      node.label? = some name ∧ (name, i) ∈ ns.declared
  /-- What a namespace declares is listed in it. -/
  declared : ∀ ns ∈ a.namespaces, ∀ entry ∈ ns.declared, ∃ kind, entry.2 ∈ ns.listed kind
  base_model : ∀ i m base, a.type? i = some (.model m) → m.base = some base →
    ∃ b, a.type? base = some (.model b)
  base_scalar : ∀ i s base, a.type? i = some (.scalar s) → s.base = some base →
    ∃ b, a.type? base = some (.scalar b)
  /-- A default that is a member of an enum is one of the enum that the property is of. -/
  default_member : ∀ i m, a.type? i = some (.model m) → ∀ p ∈ m.properties, ∀ enum index,
    p.default = some (.member enum index) →
      p.type = enum ∧ ∃ e member, a.type? enum = some (.enum e) ∧ e.members[index]? = some member
  /-- An operation is listed by its namespace and by no other. -/
  operation_iff : ∀ i op, a.operation? i = some op → ∀ home ns, a.namespace? home = some ns →
    (i ∈ ns.operations ↔ op.container.home = home)
  operations_nodup : ∀ ns ∈ a.namespaces, ns.operations.Nodup

/-! ## What nodes are for -/

variable {L : Legend} {g : Graph} {a : Arena}

theorem exists_type?_of_mem {node : Node} (h : node ∈ a.types) : ∃ i, a.type? i = some node := by
  obtain ⟨i, hi⟩ := List.mem_iff_getElem?.mp h
  exact ⟨⟨i⟩, hi⟩

namespace Represents

/-- An index for a declaration leads to its node, filled in. -/
theorem exists_declaration (h : Represents L g a) (hg : g.Coherent) {d : DeclId} {i : TypeIndex}
    (hi : L.IsDecl d i) : ∃ decl node, g.declaration? d = some decl ∧ a.type? i = some node ∧
      ShowsDeclaration L a.types d decl node := by
  obtain ⟨kind, hlisted⟩ := h.owner_listed d i hi
  obtain ⟨decl, hdecl, _⟩ := (hg.declared_iff d kind).mpr hlisted
  obtain ⟨node, hnode, hshows⟩ := h.resolved d decl i hdecl hi
  exact ⟨decl, node, hdecl, hnode, hshows⟩

/-- A node is that of a declaration, filled in, or that of an inline type. -/
theorem node_cases (h : Represents L g a) (hg : g.Coherent) {i : TypeIndex} {node : Node}
    (hnode : a.type? i = some node) :
    (∃ d decl, L.IsDecl d i ∧ g.declaration? d = some decl ∧
      ShowsDeclaration L a.types d decl node) ∨
    ∃ t, Shows L a.types t i ∧ L.HasInline a.types node i := by
  cases howner : L.owner? i with
  | none =>
    have hinline : L.HasInline a.types node i := ⟨howner, hnode⟩
    obtain ⟨t, ht⟩ := h.inline node i hinline
    exact .inr ⟨t, ht, hinline⟩
  | some d =>
    obtain ⟨decl, node', hdecl, hnode', hshows⟩ := h.exists_declaration hg howner
    obtain rfl : node = node' := Option.some.inj (hnode.symm.trans hnode')
    exact .inl ⟨d, decl, howner, hdecl, hshows⟩

/-- A model is declared, or it extends nothing and has no defaults. -/
theorem model_cases (h : Represents L g a) (hg : g.Coherent) {i : TypeIndex} {m : Model}
    (hm : a.type? i = some (.model m)) :
    (∃ d decl, g.model? d = some decl ∧
      List.Forall₂ (ShowsProperty L a.types) decl.properties m.properties ∧
      Option.Rel L.IsDecl decl.base m.base ∧
      Option.Rel (ShowsIndexer L a.types) decl.indexer m.indexer) ∨
    (m.base = none ∧ (∀ p ∈ m.properties, p.default = none ∧ ∃ t, Shows L a.types t p.type) ∧
      ∀ indexer, m.indexer = some indexer → ∃ t, Shows L a.types t indexer.value) := by
  rcases h.node_cases hg hm with ⟨d, decl, _, hdecl, hshows⟩ | ⟨t, ht, hinline⟩
  · cases hshows with
    | model _ hproperties hbase hindexer =>
      exact .inl ⟨d, _, Graph.model?_eq_some_iff.mpr hdecl, hproperties, hbase, hindexer⟩
  · right
    cases ht with
    | ref hi => exact absurd (hi.symm.trans hinline.1) (Option.some_ne_none _)
    | intrinsic hi | string hi | number hi | boolean hi | union hi _ =>
      cases hi.2.symm.trans hinline.2
    | array hi hvalue | record hi hvalue =>
      cases hi.2.symm.trans hinline.2
      refine ⟨rfl, fun _ hp => absurd hp List.not_mem_nil, fun indexer hindexer => ?_⟩
      cases hindexer
      exact ⟨_, hvalue⟩
    | model hi hps =>
      cases hi.2.symm.trans hinline.2
      refine ⟨rfl, fun p hp => ?_, fun _ hindexer => absurd hindexer.symm (Option.some_ne_none _)⟩
      obtain ⟨_, _, ht, heq⟩ := Aligned.exists_left (showsInline_iff_forall₂.mp hps) hp
      exact ⟨by rw [heq], _, ht⟩

/-- A scalar is declared. -/
theorem exists_scalar (h : Represents L g a) (hg : g.Coherent) {i : TypeIndex} {s : Scalar}
    (hs : a.type? i = some (.scalar s)) :
    ∃ d decl, g.scalar? d = some decl ∧ Option.Rel L.IsDecl decl.base s.base := by
  rcases h.node_cases hg hs with ⟨d, decl, _, hdecl, hshows⟩ | ⟨t, ht, hinline⟩
  · cases hshows with
    | scalar _ hbase => exact ⟨d, _, Graph.scalar?_eq_some_iff.mpr hdecl, hbase⟩
  · cases ht with
    | ref hi => exact absurd (hi.symm.trans hinline.1) (Option.some_ne_none _)
    | intrinsic hi | string hi | number hi | boolean hi => cases hi.2.symm.trans hinline.2
    | array hi | record hi | union hi | model hi => cases hi.2.symm.trans hinline.2

/-- The variants of a union, declared or not, show types. -/
theorem exists_shows_of_variant (h : Represents L g a) (hg : g.Coherent) {i : TypeIndex}
    {u : Union} (hu : a.type? i = some (.union u)) {v : Variant} (hv : v ∈ u.variants) :
    ∃ t, Shows L a.types t v.type := by
  rcases h.node_cases hg hu with ⟨d, decl, _, hdecl, hshows⟩ | ⟨t, ht, hinline⟩
  · cases hshows with
    | union _ hvariants =>
      obtain ⟨_, _, hshown⟩ := Aligned.exists_left hvariants hv
      exact ⟨_, hshown.type⟩
  · cases ht with
    | ref hi => exact absurd (hi.symm.trans hinline.1) (Option.some_ne_none _)
    | intrinsic hi | string hi | number hi | boolean hi => cases hi.2.symm.trans hinline.2
    | array hi | record hi | model hi => cases hi.2.symm.trans hinline.2
    | union hi hts =>
      cases hi.2.symm.trans hinline.2
      obtain ⟨j, hj, rfl⟩ := List.mem_map.mp hv
      obtain ⟨t, _, ht⟩ := Aligned.exists_left (showsAll_iff_forall₂.mp hts) hj
      exact ⟨t, ht⟩

end Represents

/-! ## What is stored -/

/-- A default that is a member of an enum shows one. -/
theorem ShowsDefault.exists_member {default : Option ApiEmit.DefaultValue} {enum : TypeIndex}
    {index : Nat} (h : ShowsDefault L default (some (.member enum index))) :
    ∃ d, default = some (.member d index) ∧ L.IsDecl d enum := by
  cases h with
  | member _ hdecl => exact ⟨_, rfl, hdecl⟩

/-- Every type index that stands in an arena shows a type. -/
theorem Stores.exists_shows (h : Represents L g a) (hg : g.Coherent) {i : TypeIndex}
    (hs : a.Stores i) : ∃ t, Shows L a.types t i := by
  cases hs with
  | listed hns hi =>
    obtain ⟨_, _, hshows⟩ := h.exists_shows_of_mem hns
    obtain ⟨_, _, hdecl⟩ := Aligned.exists_left (hshows.listed _) hi
    exact ⟨_, .ref hdecl⟩
  | declared hns hentry =>
    obtain ⟨_, _, hshows⟩ := h.exists_shows_of_mem hns
    exact ⟨_, .ref (hshows.declared _ hentry)⟩
  | property hm hp =>
    obtain ⟨_, hm⟩ := exists_type?_of_mem hm
    rcases h.model_cases hg hm with ⟨_, _, _, hproperties, _⟩ | ⟨_, hinline, _⟩
    · obtain ⟨_, _, hshown⟩ := Aligned.exists_left hproperties hp
      exact ⟨_, hshown.type⟩
    · exact (hinline _ hp).2
  | default hm hp hdefault =>
    obtain ⟨_, hm⟩ := exists_type?_of_mem hm
    rcases h.model_cases hg hm with ⟨_, _, _, hproperties, _⟩ | ⟨_, hinline, _⟩
    · obtain ⟨_, _, hshown⟩ := Aligned.exists_left hproperties hp
      obtain ⟨_, _, hdecl⟩ := (hdefault ▸ hshown.default).exists_member
      exact ⟨_, .ref hdecl⟩
    · cases hdefault.symm.trans (hinline _ hp).1
  | modelBase hm hbase =>
    obtain ⟨_, hm⟩ := exists_type?_of_mem hm
    rcases h.model_cases hg hm with ⟨_, _, _, _, hshown, _⟩ | ⟨hnone, _⟩
    · obtain ⟨_, _, hdecl⟩ := Aligned.exists_some_left (hbase ▸ hshown)
      exact ⟨_, .ref hdecl⟩
    · cases hbase.symm.trans hnone
  | indexer hm hindexer =>
    obtain ⟨_, hm⟩ := exists_type?_of_mem hm
    rcases h.model_cases hg hm with ⟨_, _, _, _, _, hshown⟩ | ⟨_, _, hinline⟩
    · obtain ⟨_, _, hshown⟩ := Aligned.exists_some_left (hindexer ▸ hshown)
      exact ⟨_, hshown.value⟩
    · exact hinline _ hindexer
  | scalarBase hscalar hbase =>
    obtain ⟨_, hscalar⟩ := exists_type?_of_mem hscalar
    obtain ⟨_, _, _, hshown⟩ := h.exists_scalar hg hscalar
    obtain ⟨_, _, hdecl⟩ := Aligned.exists_some_left (hbase ▸ hshown)
    exact ⟨_, .ref hdecl⟩
  | variant hu hv =>
    obtain ⟨_, hu⟩ := exists_type?_of_mem hu
    exact h.exists_shows_of_variant hg hu hv
  | parameter hop hp =>
    obtain ⟨_, _, hshown⟩ := Aligned.exists_left h.operations hop
    obtain ⟨_, _, hshown⟩ := Aligned.exists_left hshown.parameters hp
    exact ⟨_, hshown.type⟩
  | request hop hb =>
    obtain ⟨_, _, hshown⟩ := Aligned.exists_left h.operations hop
    obtain ⟨_, _, hshown⟩ := Aligned.exists_some_left (hb ▸ hshown.body)
    exact ⟨_, hshown.type⟩
  | response hop hr hb =>
    obtain ⟨_, _, hshown⟩ := Aligned.exists_left h.operations hop
    obtain ⟨_, _, hshown⟩ := Aligned.exists_left hshown.responses hr
    obtain ⟨_, _, hshown⟩ := Aligned.exists_left hshown.bodies hb
    exact ⟨_, hshown.type⟩

/-- The namespace of a node is a place. -/
theorem Represents.exists_place_of_home (h : Represents L g a) (hg : g.Coherent) {i : TypeIndex}
    {node : Node} (hnode : a.type? i = some node) {home : NamespaceIndex}
    (hhome : node.home? = some home) : ∃ place, L.IsPlace place home := by
  rcases h.node_cases hg hnode with ⟨d, decl, _, _, hshows⟩ | ⟨t, ht, hinline⟩
  · cases hshows with
    | model hplace | scalar hplace | enum hplace | union hplace =>
      cases hhome
      exact ⟨_, hplace⟩
  · cases ht with
    | ref hi => exact absurd (hi.symm.trans hinline.1) (Option.some_ne_none _)
    | intrinsic hi | string hi | number hi | boolean hi | union hi | model hi =>
      cases hi.2.symm.trans hinline.2
      cases hhome
    | array hi | record hi =>
      cases hi.2.symm.trans hinline.2
      cases hhome
      exact ⟨_, h.library⟩

/-- Every namespace index that stands in an arena is that of a place. -/
theorem StoresNamespace.exists_place (h : Represents L g a) (hg : g.Coherent) {i : NamespaceIndex}
    (hs : a.StoresNamespace i) : ∃ place, L.IsPlace place i := by
  cases hs with
  | global => exact ⟨.root, h.global ▸ h.root⟩
  | parent hns hparent =>
    obtain ⟨_, _, hshows⟩ := h.exists_shows_of_mem hns
    obtain ⟨place, _, hplace⟩ := Aligned.exists_some_left (hparent ▸ hshows.parent)
    exact ⟨place, hplace⟩
  | child hns hi =>
    obtain ⟨_, _, hshows⟩ := h.exists_shows_of_mem hns
    obtain ⟨place, _, hplace⟩ := Aligned.exists_left hshows.children hi
    exact ⟨place, hplace⟩
  | home hnode hhome =>
    obtain ⟨_, hnode⟩ := exists_type?_of_mem hnode
    exact h.exists_place_of_home hg hnode hhome
  | container hop =>
    obtain ⟨op, _, hshown⟩ := Aligned.exists_left h.operations hop
    exact ⟨op.home, hshown.home⟩

/-! ## The tree of namespaces -/

namespace Represents

variable {i : NamespaceIndex} {node : Namespace}

/-- Only one place has an index. -/
theorem place_eq {place place' : NamespaceId} (hi : L.IsPlace place i) (hi' : L.IsPlace place' i) :
    place = place' :=
  Option.some.inj (hi.symm.trans hi')

theorem root_iff (h : Represents L g a) (hnode : a.namespace? i = some node) :
    node.parent = none ↔ i = a.global := by
  obtain ⟨ns, _, hplace, hshows⟩ := h.exists_shows hnode
  have hroot : i = a.global ↔ ns.id.parent? = none := by
    rw [NamespaceId.parent?_eq_none_iff, h.global]
    constructor
    · rintro rfl
      exact place_eq hplace h.root
    · intro hid
      exact h.isPlace_inj (hid ▸ hplace) h.root
  rw [hroot]
  obtain ⟨hid, hparent⟩ | ⟨_, _, hid, hparent, _⟩ := Aligned.option_cases hshows.parent
  · simp [hid, hparent]
  · simp [hid, hparent]

theorem parent_iff (h : Represents L g a) (hnode : a.namespace? i = some node)
    (outer : NamespaceIndex) : node.parent = some outer ↔ a.IsChild outer i := by
  obtain ⟨ns, _, hplace, hshows⟩ := h.exists_shows hnode
  constructor
  · intro hparent
    obtain ⟨place, hid, houter⟩ := Aligned.exists_some_left (hparent ▸ hshows.parent)
    obtain ⟨ns', node', _, rfl, hnode', hshows'⟩ := h.exists_namespace houter
    have hmem : ns.id ∈ L.places.filter (·.parent? == some ns'.id) :=
      List.mem_filter.mpr ⟨List.mem_of_getElem? hplace, beq_iff_eq.mpr hid⟩
    obtain ⟨j, hj, hplace'⟩ := Aligned.exists_right hshows'.children hmem
    exact ⟨node', hnode', h.isPlace_inj hplace hplace' ▸ hj⟩
  · rintro ⟨node', hnode', hmem⟩
    obtain ⟨ns', _, houter, hshows'⟩ := h.exists_shows hnode'
    obtain ⟨place, hchild, hplace'⟩ := Aligned.exists_left hshows'.children hmem
    obtain rfl := place_eq hplace hplace'
    have hid : ns.id.parent? = some ns'.id := beq_iff_eq.mp (List.mem_filter.mp hchild).2
    obtain ⟨j, hparent, hj⟩ := Aligned.exists_some_right (hid ▸ hshows.parent)
    rw [hparent, h.isPlace_inj hj houter]

theorem children_nodup (h : Represents L g a) (hnode : node ∈ a.namespaces) :
    node.children.Nodup := by
  obtain ⟨_, _, hshows⟩ := h.exists_shows_of_mem hnode
  have hplace : ∀ place place' i, L.IsPlace place i → L.IsPlace place' i → place = place' :=
    fun _ _ _ => place_eq
  exact Aligned.nodup_right hplace hshows.children (h.places_nodup.filter _)

/-- Every namespace is reached from the global one, by induction on where it stands. -/
theorem reached (h : Represents L g a) (hnode : a.namespace? i = some node) :
    Relation.ReflTransGen a.IsChild a.global i := by
  obtain ⟨k⟩ := i
  induction k using Nat.strongRecOn generalizing node with
  | ind k ih =>
    cases hparent : node.parent with
    | none => exact (h.root_iff hnode).mp hparent ▸ .refl
    | some outer =>
      have hchild := (h.parent_iff hnode outer).mp hparent
      have ⟨ns, hns, _⟩ := hchild
      exact (ih outer.position (h.parent_lt k node outer hnode hparent) hns).tail hchild

end Represents

/-! ## What namespaces list -/

/-- The node of a declaration carries its name. -/
theorem ShowsDeclaration.label?_eq {types : List Node} {d : DeclId} {decl : Declaration}
    {node : Node} (h : ShowsDeclaration L types d decl node) : node.label? = some d.name := by
  cases h <;> rfl

/-- The node of a declaration carries its namespace. -/
theorem ShowsDeclaration.exists_home {types : List Node} {d : DeclId} {decl : Declaration}
    {node : Node} (h : ShowsDeclaration L types d decl node) :
    ∃ home, node.home? = some home ∧ L.IsPlace d.home home := by
  cases h with
  | model hhome | scalar hhome | enum hhome | union hhome => exact ⟨_, rfl, hhome⟩

namespace Represents

variable {home : NamespaceIndex} {node : Namespace}

theorem exists_listed (h : Represents L g a) (hg : g.Coherent)
    (hnode : a.namespace? home = some node) {kind : Kind} {i : TypeIndex}
    (hi : i ∈ node.listed kind) : ∃ shown name, a.type? i = some shown ∧
      shown.kind? = some kind ∧ shown.home? = some home ∧ shown.label? = some name ∧
        (name, i) ∈ node.declared := by
  obtain ⟨ns, hns, hplace, hshows⟩ := h.exists_shows hnode
  obtain ⟨name, hname, hdecl⟩ := Aligned.exists_left (hshows.listed kind) hi
  have hlisted : Listed g.namespaces ⟨ns.id, name⟩ kind :=
    ⟨ns, hns, rfl, Namespace.mem_declared_iff.mpr hname⟩
  obtain ⟨decl, hd, rfl⟩ := (hg.declared_iff _ kind).mpr hlisted
  obtain ⟨shown, hshown, hshows'⟩ := h.resolved _ decl i hd hdecl
  obtain ⟨home', hhome, hplace'⟩ := hshows'.exists_home
  obtain rfl := h.isPlace_inj hplace hplace'
  have hentered : name ∈ node.declared.map (·.1) :=
    (hshows.names name).mpr (Namespace.mem_names_iff.mpr ⟨_, hname⟩)
  obtain ⟨⟨_, j⟩, hentry, rfl⟩ := List.mem_map.mp hentered
  obtain rfl := h.owner_inj _ i j hdecl (hshows.declared _ hentry)
  exact ⟨shown, _, hshown, hshows'.kind?_eq, hhome, hshows'.label?_eq, hentry⟩

theorem exists_kind_of_declared (h : Represents L g a) (hnode : node ∈ a.namespaces)
    {entry : String × TypeIndex} (hentry : entry ∈ node.declared) :
    ∃ kind, entry.2 ∈ node.listed kind := by
  obtain ⟨ns, _, hshows⟩ := h.exists_shows_of_mem hnode
  have hname := (hshows.names entry.1).mp (List.mem_map_of_mem hentry)
  obtain ⟨kind, hkind⟩ := Namespace.mem_names_iff.mp hname
  obtain ⟨i, hi, hdecl⟩ := Aligned.exists_right (hshows.listed kind) hkind
  exact ⟨kind, h.owner_inj _ _ _ hdecl (hshows.declared entry hentry) ▸ hi⟩

end Represents

/-! ## Bases and defaults -/

namespace Represents

theorem exists_base_model (h : Represents L g a) (hg : g.WellFormed) {i base : TypeIndex}
    {m : Model} (hm : a.type? i = some (.model m)) (hbase : m.base = some base) :
    ∃ b, a.type? base = some (.model b) := by
  rcases h.model_cases hg.toCoherent hm with ⟨d, decl, hd, _, hshown, _⟩ | ⟨hnone, _⟩
  · obtain ⟨b, hb, hdecl⟩ := Aligned.exists_some_left (hbase ▸ hshown)
    obtain ⟨_, hb⟩ := hg.base_model d decl b hd hb
    obtain ⟨node, hnode, hshows⟩ := h.resolved b _ base (Graph.model?_eq_some_iff.mp hb) hdecl
    cases hshows with
    | model => exact ⟨_, hnode⟩
  · cases hbase.symm.trans hnone

theorem exists_base_scalar (h : Represents L g a) (hg : g.WellFormed) {i base : TypeIndex}
    {s : Scalar} (hs : a.type? i = some (.scalar s)) (hbase : s.base = some base) :
    ∃ b, a.type? base = some (.scalar b) := by
  obtain ⟨d, decl, hd, hshown⟩ := h.exists_scalar hg.toCoherent hs
  obtain ⟨b, hb, hdecl⟩ := Aligned.exists_some_left (hbase ▸ hshown)
  obtain ⟨_, hb⟩ := hg.base_scalar d decl b hd hb
  obtain ⟨node, hnode, hshows⟩ := h.resolved b _ base (Graph.scalar?_eq_some_iff.mp hb) hdecl
  cases hshows with
  | scalar => exact ⟨_, hnode⟩

theorem exists_default_member (h : Represents L g a) (hg : g.WellFormed) {i enum : TypeIndex}
    {m : Model} (hm : a.type? i = some (.model m)) {p : Property} (hp : p ∈ m.properties)
    {index : Nat} (hdefault : p.default = some (.member enum index)) :
    p.type = enum ∧
      ∃ e member, a.type? enum = some (.enum e) ∧ e.members[index]? = some member := by
  rcases h.model_cases hg.toCoherent hm with ⟨d, decl, hd, hproperties, _⟩ | ⟨_, hinline, _⟩
  · obtain ⟨q, hq, hshown⟩ := Aligned.exists_left hproperties hp
    obtain ⟨id, hmember, hdecl⟩ := (hdefault ▸ hshown.default).exists_member
    obtain ⟨htype, e, member, he, hindex⟩ := hg.default_member d decl hd q hq id index hmember
    obtain ⟨node, hnode, hshows⟩ := h.resolved id _ enum (Graph.enum?_eq_some_iff.mp he) hdecl
    have hsame : p.type = enum := by
      cases htype ▸ hshown.type with
      | ref hi => exact h.owner_inj id _ _ hi hdecl
    cases hshows with
    | enum => exact ⟨hsame, _, member, hnode, hindex⟩
  · cases hdefault.symm.trans (hinline p hp).1

end Represents

/-! ## Operations -/

theorem mem_positionsIn_iff {operations : List ApiEmit.Operation} {id : NamespaceId}
    {i : OperationIndex} : i ∈ positionsIn operations id ↔
      ∃ op, operations[i.position]? = some op ∧ op.home = id := by
  unfold positionsIn
  constructor
  · intro hi
    obtain ⟨⟨op, k⟩, hentry, rfl⟩ := List.mem_map.mp hi
    obtain ⟨hmem, hhome⟩ := List.mem_filter.mp hentry
    exact ⟨op, List.mk_mem_zipIdx_iff_getElem?.mp hmem, beq_iff_eq.mp hhome⟩
  · rintro ⟨op, hop, rfl⟩
    refine List.mem_map.mpr ⟨(op, i.position), List.mem_filter.mpr ⟨?_, ?_⟩, rfl⟩
    · exact List.mk_mem_zipIdx_iff_getElem?.mpr hop
    · exact beq_iff_eq.mpr rfl

theorem positionsIn_nodup (operations : List ApiEmit.Operation) (id : NamespaceId) :
    (positionsIn operations id).Nodup := by
  have hall : (operations.zipIdx.map (·.2)).Nodup := by
    rw [List.zipIdx_map_snd]
    exact List.nodup_range'
  have hhere : ((operations.zipIdx.filter (·.1.home == id)).map (·.2)).Nodup :=
    hall.sublist (List.filter_sublist.map _)
  have hindices := hhere.map fun _ _ hij => congrArg OperationIndex.position hij
  rwa [List.map_map] at hindices

namespace Represents

theorem operation_iff (h : Represents L g a) {i : OperationIndex} {op : Operation}
    (hop : a.operation? i = some op) {home : NamespaceIndex} {node : Namespace}
    (hnode : a.namespace? home = some node) :
    i ∈ node.operations ↔ op.container.home = home := by
  obtain ⟨ns, _, hplace, hshows⟩ := h.exists_shows hnode
  obtain ⟨op', hop', hshown⟩ := Aligned.exists_getElem?_left h.operations hop
  rw [hshows.operations, mem_positionsIn_iff]
  constructor
  · rintro ⟨op'', hop'', hid⟩
    obtain rfl : op' = op'' := Option.some.inj (hop'.symm.trans hop'')
    exact h.isPlace_inj hshown.home (hid ▸ hplace)
  · rintro rfl
    exact ⟨op', hop', place_eq hshown.home hplace⟩

theorem exists_operation (h : Represents L g a) {i : OperationIndex}
    (hs : a.StoresOperation i) : ∃ op, a.operation? i = some op := by
  cases hs with
  | listed hns hi =>
    obtain ⟨_, _, hshows⟩ := h.exists_shows_of_mem hns
    rw [hshows.operations, mem_positionsIn_iff] at hi
    obtain ⟨op, hop, _⟩ := hi
    have hlt : i.position < a.operations.length :=
      h.operations.length_eq ▸ (List.getElem?_eq_some_iff.mp hop).1
    exact ⟨_, List.getElem?_eq_getElem hlt⟩

end Represents

/-! ## Loaded arenas -/

/-- **An arena that is the form of a well-formed program is well formed.** -/
theorem Represents.wellFormed (h : Represents L g a) (hg : g.WellFormed) : a.WellFormed where
  types i hs := by
    obtain ⟨t, ht⟩ := hs.exists_shows h hg.toCoherent
    exact ⟨_, List.getElem?_eq_getElem (h.position_lt ht)⟩
  namespaces i hs := by
    obtain ⟨place, hplace⟩ := hs.exists_place h hg.toCoherent
    obtain ⟨_, node, _, _, hnode, _⟩ := h.exists_namespace hplace
    exact ⟨node, hnode⟩
  operations i hs := h.exists_operation hs
  root_iff i ns := h.root_iff
  parent_iff i ns outer hns := h.parent_iff hns outer
  children_nodup ns := h.children_nodup
  parent_lt i ns := h.parent_lt i.position ns
  reached i ns := h.reached
  listed home ns hns kind i := h.exists_listed hg.toCoherent hns
  declared ns hns entry := h.exists_kind_of_declared hns
  base_model i m base := h.exists_base_model hg
  base_scalar i s base := h.exists_base_scalar hg
  default_member i m hm p hp enum index := h.exists_default_member hg hm hp
  operation_iff i op hop home ns := h.operation_iff hop
  operations_nodup ns hns := by
    obtain ⟨_, _, hshows⟩ := h.exists_shows_of_mem hns
    exact hshows.operations ▸ positionsIn_nodup _ _

end ApiEmit.Arena
