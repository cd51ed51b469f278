/-
ApiEmit.Proofs.Represented — an arena as the form that a program is kept in.

A `Legend` says which namespace and which declaration each position of an arena is for. By it
`Shows` reads a node as a type: a reference leads to the node of a declaration, and everything
inline has a node of its own. `Represents` says of a whole arena that it is the form of a graph,
which may be one that is not resolved to the end: a declaration that the graph does not have yet
has a placeholder for its node.
-/
import ApiEmit.Arena.Load
import ApiEmit.Graph.Query
import ApiEmit.Proofs.Aligned
import Mathlib.Data.List.Nodup

namespace ApiEmit

/-- The names that a namespace declares as a kind. -/
def Namespace.listed (ns : Namespace) : Kind → List String
  | .model => ns.models
  | .enum => ns.enums
  | .union => ns.unions
  | .scalar => ns.scalars

theorem Namespace.mem_declared_iff {ns : Namespace} {name : String} {kind : Kind} :
    (name, kind) ∈ ns.declared ↔ name ∈ ns.listed kind := by
  cases kind <;> simp [Namespace.declared, Namespace.listed]

/-- A name is declared when it is of some kind. -/
theorem Namespace.mem_names_iff {ns : Namespace} {name : String} :
    name ∈ ns.declared.map (·.1) ↔ ∃ kind, name ∈ ns.listed kind := by
  simp [← Namespace.mem_declared_iff]

/-- Some namespaces declare a name as a kind. -/
def Listed (namespaces : List Namespace) (id : DeclId) (kind : Kind) : Prop :=
  ∃ ns ∈ namespaces, ns.id = id.home ∧ (id.name, kind) ∈ ns.declared

/-- A name is declared as one kind only, where no two namespaces and no two names are alike. -/
theorem Listed.kind_eq {namespaces : List Namespace} (hids : (namespaces.map (·.id)).Nodup)
    (hnames : ∀ ns ∈ namespaces, (ns.declared.map (·.1)).Nodup) {id : DeclId} {kind kind' : Kind}
    (h : Listed namespaces id kind) (h' : Listed namespaces id kind') : kind = kind' := by
  obtain ⟨ns, hns, hid, hmem⟩ := h
  obtain ⟨ns', hns', hid', hmem'⟩ := h'
  obtain rfl : ns = ns' := List.inj_on_of_nodup_map hids hns hns' (hid.trans hid'.symm)
  exact (Prod.mk.inj (List.inj_on_of_nodup_map (hnames ns hns) hmem hmem' rfl)).2

namespace Arena

/-! ## Positions -/

/-- What the positions of an arena are for: a namespace each, and a declaration or nothing. -/
structure Legend where
  places : List NamespaceId
  owners : List (Option DeclId)

namespace Legend

/-- An index is for a namespace. -/
def IsPlace (L : Legend) (place : NamespaceId) (i : NamespaceIndex) : Prop :=
  L.places[i.position]? = some place

/-- The declaration that an index is for. -/
def owner? (L : Legend) (i : TypeIndex) : Option DeclId :=
  L.owners[i.position]?.join

/-- An index is for a declaration. -/
def IsDecl (L : Legend) (d : DeclId) (i : TypeIndex) : Prop :=
  L.owner? i = some d

/-- An index leads to a node and is for no declaration. -/
def HasInline (L : Legend) (types : List Node) (node : Node) (i : TypeIndex) : Prop :=
  L.owner? i = none ∧ types[i.position]? = some node

end Legend

/-! ## Types -/

variable (L : Legend) (types : List Node)

mutual

/-- An index shows a type. -/
inductive Shows : Ty → TypeIndex → Prop
  | ref {d : DeclId} {i : TypeIndex} (h : L.IsDecl d i) : Shows (.ref d) i
  | intrinsic {k : Intrinsic} {i : TypeIndex} (h : L.HasInline types (.intrinsic k) i) :
      Shows (.intrinsic k) i
  | string {s : String} {i : TypeIndex} (h : L.HasInline types (.string s) i) :
      Shows (.string s) i
  | number {n : Json.Number} {i : TypeIndex} (h : L.HasInline types (.number n) i) :
      Shows (.number n) i
  | boolean {b : Bool} {i : TypeIndex} (h : L.HasInline types (.boolean b) i) :
      Shows (.boolean b) i
  | array {t : Ty} {i value : TypeIndex}
      (h : L.HasInline types (Loader.container "Array" .integer value) i) (ht : Shows t value) :
      Shows (.array t) i
  | record {t : Ty} {i value : TypeIndex}
      (h : L.HasInline types (Loader.container "Record" .string value) i) (ht : Shows t value) :
      Shows (.record t) i
  | union {ts : List Ty} {i : TypeIndex} {ids : List TypeIndex}
      (h : L.HasInline types (.union { variants := ids.map (⟨none, ·⟩) }) i)
      (hts : ShowsAll ts ids) : Shows (.union ts) i
  | model {ps : List (InlineProperty Ty)} {i : TypeIndex} {qs : List Property}
      (h : L.HasInline types (.model { properties := qs }) i) (hps : ShowsInline ps qs) :
      Shows (.model ps) i

/-- Some indices show some types. -/
inductive ShowsAll : List Ty → List TypeIndex → Prop
  | nil : ShowsAll [] []
  | cons {t : Ty} {ts : List Ty} {i : TypeIndex} {ids : List TypeIndex} (h : Shows t i)
      (hts : ShowsAll ts ids) : ShowsAll (t :: ts) (i :: ids)

/-- Some properties show those of an inline model, which have neither defaults nor constraints. -/
inductive ShowsInline : List (InlineProperty Ty) → List Property → Prop
  | nil : ShowsInline [] []
  | cons {name : String} {t : Ty} {optional : Bool} {doc : Option String} {i : TypeIndex}
      {ps : List (InlineProperty Ty)} {qs : List Property} (h : Shows t i)
      (hps : ShowsInline ps qs) :
      ShowsInline (⟨name, t, optional, doc⟩ :: ps) ({ name, type := i, optional, doc } :: qs)

end

/-! ## Declarations -/

/-- A default of a property, where null and none are one. -/
inductive ShowsDefault : Option ApiEmit.DefaultValue → Option DefaultValue → Prop
  | none : ShowsDefault none none
  | null : ShowsDefault none (some .null)
  | string (s : String) : ShowsDefault (some (.string s)) (some (.string s))
  | number (n : Json.Number) : ShowsDefault (some (.number n)) (some (.number n))
  | boolean (b : Bool) : ShowsDefault (some (.boolean b)) (some (.boolean b))
  | member {d : DeclId} {i : TypeIndex} (index : Nat) (h : L.IsDecl d i) :
      ShowsDefault (some (.member d index)) (some (.member i index))

/-- A property of a declared model. -/
structure ShowsProperty (p : ApiEmit.Property) (q : Property) : Prop where
  name : q.name = p.name
  type : Shows L types p.type q.type
  optional : q.optional = p.optional
  default : ShowsDefault L p.default q.default
  doc : q.doc = p.doc
  constraints : q.constraints = p.constraints

/-- A variant of a declared union. -/
structure ShowsVariant (v : ApiEmit.Variant) (w : Variant) : Prop where
  name : w.name = v.name
  type : Shows L types v.type w.type

/-- The further values of a model have texts for their keys. -/
structure ShowsIndexer (t : Ty) (indexer : Indexer) : Prop where
  key : indexer.key = .string
  value : Shows L types t indexer.value

/-- A node shows a declaration, whose name and namespace it carries. -/
inductive ShowsDeclaration (d : DeclId) : Declaration → Node → Prop
  | model {m : ApiEmit.Model} {home : NamespaceIndex} {properties : List Property}
      {base : Option TypeIndex} {indexer : Option Indexer} (hhome : L.IsPlace d.home home)
      (hproperties : List.Forall₂ (ShowsProperty L types) m.properties properties)
      (hbase : Option.Rel L.IsDecl m.base base)
      (hindexer : Option.Rel (ShowsIndexer L types) m.indexer indexer) :
      ShowsDeclaration d (.model m) (.model
        { name := d.name, home := some home, properties, base, indexer, doc := m.doc,
          constraints := m.constraints })
  | scalar {s : ApiEmit.Scalar} {home : NamespaceIndex} {base : Option TypeIndex}
      (hhome : L.IsPlace d.home home) (hbase : Option.Rel L.IsDecl s.base base) :
      ShowsDeclaration d (.scalar s) (.scalar
        { name := d.name, home := some home, base, doc := s.doc, constraints := s.constraints })
  | enum {e : EnumDecl} {home : NamespaceIndex} (hhome : L.IsPlace d.home home) :
      ShowsDeclaration d (.enum e) (.enum
        { name := d.name, home := some home, members := e.members, doc := e.doc })
  | union {u : UnionDecl} {home : NamespaceIndex} {variants : List Variant}
      (hhome : L.IsPlace d.home home)
      (hvariants : List.Forall₂ (ShowsVariant L types) u.variants variants) :
      ShowsDeclaration d (.union u) (.union
        { name := some d.name, home := some home, variants, doc := u.doc })

/-! ## Operations -/

/-- A parameter of an operation. -/
structure ShowsParameter (p : ApiEmit.Parameter) (q : Parameter) : Prop where
  name : q.name = p.name
  location : q.location = p.location
  type : Shows L types p.type q.type
  optional : q.optional = p.optional
  doc : q.doc = p.doc

/-- The payload of a request or a response. -/
structure ShowsBody (b : ApiEmit.Body) (c : Body) : Prop where
  type : Shows L types b.type c.type
  contentTypes : c.contentTypes = b.contentTypes

/-- A response of an operation. -/
structure ShowsResponse (r : ApiEmit.Response) (s : Response) : Prop where
  status : s.status = r.status
  description : s.description = r.description
  bodies : List.Forall₂ (ShowsBody L types) r.bodies s.bodies

/-- An operation. -/
structure ShowsOperation (op : ApiEmit.Operation) (shown : Operation) : Prop where
  name : shown.name = op.name
  home : L.IsPlace op.home shown.container.home
  interface : shown.container.interface? = op.interface
  verb : shown.verb = op.verb
  path : shown.path = op.path
  doc : shown.doc = op.doc
  summary : shown.summary = op.summary
  parameters : List.Forall₂ (ShowsParameter L types) op.parameters shown.parameters
  body : Option.Rel (ShowsBody L types) op.body shown.body
  responses : List.Forall₂ (ShowsResponse L types) op.responses shown.responses

/-! ## Namespaces -/

/-- The positions of those operations that are declared in a namespace. -/
def positionsIn (operations : List ApiEmit.Operation) (id : NamespaceId) : List OperationIndex :=
  (operations.zipIdx.filter (·.1.home == id)).map fun entry => ⟨entry.2⟩

/-- A namespace, whose children, declarations and operations are those that a graph has. -/
structure ShowsNamespace (operations : List ApiEmit.Operation) (ns : ApiEmit.Namespace)
    (node : Namespace) : Prop where
  name : node.name = ns.id.name
  parent : Option.Rel L.IsPlace ns.id.parent? node.parent
  doc : node.doc = ns.doc
  service : node.service = ns.service
  servers : node.servers = ns.servers
  children : List.Forall₂ L.IsPlace (L.places.filter (·.parent? == some ns.id)) node.children
  listed : ∀ kind, List.Forall₂ (fun name => L.IsDecl ⟨ns.id, name⟩) (ns.listed kind)
    (node.listed kind)
  /-- The names lead to the declarations. -/
  declared : ∀ entry ∈ node.declared, L.IsDecl ⟨ns.id, entry.1⟩ entry.2
  /-- The names are those that are declared. -/
  names : ∀ name, name ∈ node.declared.map (·.1) ↔ name ∈ ns.declared.map (·.1)
  operations : node.operations = positionsIn operations ns.id

/-! ## Arenas -/

/-- The namespaces of an arena are those of a graph, in their order. -/
structure ShowsTree (operations : List ApiEmit.Operation) (table : List ApiEmit.Namespace)
    (nodes : List Namespace) : Prop where
  places : L.places = table.map (·.id)
  places_nodup : L.places.Nodup
  root : L.IsPlace .root ⟨0⟩
  library : L.IsPlace .library library
  length_eq : nodes.length = table.length
  namespaces : ∀ (i : Nat) ns node, table[i]? = some ns → nodes[i]? = some node →
    ShowsNamespace L operations ns node
  /-- A namespace stands behind the one around it. -/
  parent_lt : ∀ (i : Nat) node outer, nodes[i]? = some node → node.parent = some outer →
    outer.position < i
  names_nodup : ∀ ns ∈ table, (ns.declared.map (·.1)).Nodup

/-- The types of an arena are those of a graph. -/
structure ShowsTypes (g : Graph) : Prop where
  /-- A declaration has one index only. -/
  owner_inj : ∀ d i j, L.IsDecl d i → L.IsDecl d j → i = j
  /-- Only what is declared has an index. -/
  owner_listed : ∀ d i, L.IsDecl d i → ∃ kind, Listed g.namespaces d kind
  owners_le : L.owners.length ≤ types.length
  intrinsics : ∀ k i, Intrinsic.index? k = some i → L.HasInline types (.intrinsic k) i
  /-- A node that is for no declaration is that of an inline type. -/
  inline : ∀ node i, L.HasInline types node i → ∃ t, Shows L types t i
  /-- What is resolved is declared as what it is. -/
  kinds : ∀ d decl, g.declaration? d = some decl → Listed g.namespaces d decl.kind
  resolved : ∀ d decl i, g.declaration? d = some decl → L.IsDecl d i →
    ∃ node, types[i.position]? = some node ∧ ShowsDeclaration L types d decl node
  waiting : ∀ d i, g.declaration? d = none → L.IsDecl d i →
    types[i.position]? = some .placeholder

/-- An arena is the form of a graph, by a legend. -/
structure Represents (g : Graph) (a : Arena) : Prop extends
    ShowsTree L g.operations g.namespaces a.namespaces, ShowsTypes L a.types g where
  global : a.global = ⟨0⟩
  operations : List.Forall₂ (ShowsOperation L a.types) g.operations a.operations
  diagnostics : a.diagnostics = g.diagnostics

/-! ## What is kept when an arena grows -/

/-- What positions are for stays, and so do the nodes of inline types. -/
structure Keeps (L : Legend) (types : List Node) (L' : Legend) (types' : List Node) : Prop where
  place : ∀ place i, L.IsPlace place i → L'.IsPlace place i
  decl : ∀ d i, L.IsDecl d i → L'.IsDecl d i
  inline : ∀ node i, L.HasInline types node i → L'.HasInline types' node i

namespace Keeps

variable {L L' L'' : Legend} {types types' types'' : List Node}

theorem refl (L : Legend) (types : List Node) : Keeps L types L types :=
  ⟨fun _ _ h => h, fun _ _ h => h, fun _ _ h => h⟩

theorem trans (h : Keeps L types L' types') (h' : Keeps L' types' L'' types'') :
    Keeps L types L'' types'' :=
  ⟨fun _ _ hi => h'.place _ _ (h.place _ _ hi), fun _ _ hi => h'.decl _ _ (h.decl _ _ hi),
    fun _ _ hi => h'.inline _ _ (h.inline _ _ hi)⟩

end Keeps

variable {L L' : Legend} {types types' : List Node}

mutual

/-- What an index shows, it shows in whatever the arena grows to. -/
theorem Shows.mono (hk : Keeps L types L' types') {t : Ty} {i : TypeIndex} :
    Shows L types t i → Shows L' types' t i
  | .ref h => .ref (hk.decl _ _ h)
  | .intrinsic h => .intrinsic (hk.inline _ _ h)
  | .string h => .string (hk.inline _ _ h)
  | .number h => .number (hk.inline _ _ h)
  | .boolean h => .boolean (hk.inline _ _ h)
  | .array h ht => .array (hk.inline _ _ h) (ht.mono hk)
  | .record h ht => .record (hk.inline _ _ h) (ht.mono hk)
  | .union h hts => .union (hk.inline _ _ h) (hts.mono hk)
  | .model h hps => .model (hk.inline _ _ h) (hps.mono hk)

theorem ShowsAll.mono (hk : Keeps L types L' types') {ts : List Ty} {ids : List TypeIndex} :
    ShowsAll L types ts ids → ShowsAll L' types' ts ids
  | .nil => .nil
  | .cons h hts => .cons (h.mono hk) (hts.mono hk)

theorem ShowsInline.mono (hk : Keeps L types L' types') {ps : List (InlineProperty Ty)}
    {qs : List Property} : ShowsInline L types ps qs → ShowsInline L' types' ps qs
  | .nil => .nil
  | .cons h hps => .cons (h.mono hk) (hps.mono hk)

end

theorem ShowsDefault.mono (hk : Keeps L types L' types') {d : Option ApiEmit.DefaultValue}
    {shown : Option DefaultValue} (h : ShowsDefault L d shown) : ShowsDefault L' d shown := by
  cases h with
  | none => exact .none
  | null => exact .null
  | string s => exact .string s
  | number n => exact .number n
  | boolean b => exact .boolean b
  | member index h => exact .member index (hk.decl _ _ h)

theorem ShowsProperty.mono (hk : Keeps L types L' types') {p : ApiEmit.Property} {q : Property}
    (h : ShowsProperty L types p q) : ShowsProperty L' types' p q :=
  { h with type := h.type.mono hk, default := h.default.mono hk }

theorem ShowsVariant.mono (hk : Keeps L types L' types') {v : ApiEmit.Variant} {w : Variant}
    (h : ShowsVariant L types v w) : ShowsVariant L' types' v w :=
  { h with type := h.type.mono hk }

theorem ShowsIndexer.mono (hk : Keeps L types L' types') {t : Ty} {indexer : Indexer}
    (h : ShowsIndexer L types t indexer) : ShowsIndexer L' types' t indexer :=
  { h with value := h.value.mono hk }

theorem ShowsDeclaration.mono (hk : Keeps L types L' types') {d : DeclId} {decl : Declaration}
    {node : Node} (h : ShowsDeclaration L types d decl node) :
    ShowsDeclaration L' types' d decl node := by
  cases h with
  | model hhome hproperties hbase hindexer =>
    exact .model (hk.place _ _ hhome) (hproperties.imp fun _ _ h => h.mono hk)
      (Aligned.option_imp hk.decl hbase) (Aligned.option_imp (fun _ _ h => h.mono hk) hindexer)
  | scalar hhome hbase => exact .scalar (hk.place _ _ hhome) (Aligned.option_imp hk.decl hbase)
  | enum hhome => exact .enum (hk.place _ _ hhome)
  | union hhome hvariants =>
    exact .union (hk.place _ _ hhome) (hvariants.imp fun _ _ h => h.mono hk)

theorem ShowsParameter.mono (hk : Keeps L types L' types') {p : ApiEmit.Parameter}
    {q : Parameter} (h : ShowsParameter L types p q) : ShowsParameter L' types' p q :=
  { h with type := h.type.mono hk }

theorem ShowsBody.mono (hk : Keeps L types L' types') {b : ApiEmit.Body} {c : Body}
    (h : ShowsBody L types b c) : ShowsBody L' types' b c :=
  { h with type := h.type.mono hk }

theorem ShowsResponse.mono (hk : Keeps L types L' types') {r : ApiEmit.Response} {s : Response}
    (h : ShowsResponse L types r s) : ShowsResponse L' types' r s :=
  { h with bodies := h.bodies.imp fun _ _ h => h.mono hk }

theorem ShowsOperation.mono (hk : Keeps L types L' types') {op : ApiEmit.Operation}
    {shown : Operation} (h : ShowsOperation L types op shown) :
    ShowsOperation L' types' op shown :=
  { h with
    home := hk.place _ _ h.home
    parameters := h.parameters.imp fun _ _ h => h.mono hk
    body := Aligned.option_imp (fun _ _ h => h.mono hk) h.body
    responses := h.responses.imp fun _ _ h => h.mono hk }

/-! ## Lists of what is shown -/

theorem showsAll_iff_forall₂ {ts : List Ty} {ids : List TypeIndex} :
    ShowsAll L types ts ids ↔ List.Forall₂ (Shows L types) ts ids := by
  constructor
  · intro h
    induction ts generalizing ids with
    | nil =>
      cases h
      exact .nil
    | cons t ts ih =>
      cases h with
      | cons h hts => exact .cons h (ih hts)
  · intro h
    induction h with
    | nil => exact .nil
    | cons h _ ih => exact .cons h ih

/-- A property shows one of an inline model. -/
def ShowsInlineProperty (L : Legend) (types : List Node) (p : InlineProperty Ty) (q : Property) :
    Prop :=
  Shows L types p.type q.type ∧
    q = { name := p.name, type := q.type, optional := p.optional, doc := p.doc }

theorem showsInline_iff_forall₂ {ps : List (InlineProperty Ty)} {qs : List Property} :
    ShowsInline L types ps qs ↔ List.Forall₂ (ShowsInlineProperty L types) ps qs := by
  constructor
  · intro h
    induction ps generalizing qs with
    | nil =>
      cases h
      exact .nil
    | cons p ps ih =>
      cases h with
      | cons h hps => exact .cons ⟨h, rfl⟩ (ih hps)
  · intro h
    induction h with
    | nil => exact .nil
    | cons h _ ih =>
      obtain ⟨htype, heq⟩ := h
      rw [heq]
      exact .cons htype ih

/-! ## What indices lead to -/

section

variable {operations : List ApiEmit.Operation} {table : List ApiEmit.Namespace}
  {nodes : List Namespace}

/-- Only one index is for a namespace. -/
theorem ShowsTree.isPlace_inj (h : ShowsTree L operations table nodes) {place : NamespaceId}
    {i j : NamespaceIndex} (hi : L.IsPlace place i) (hj : L.IsPlace place j) : i = j :=
  NamespaceIndex.ext ((List.getElem?_inj (List.getElem?_eq_some_iff.mp hi).1 h.places_nodup).mp
    (hi.trans hj.symm))

theorem ShowsTree.isPlace_id (h : ShowsTree L operations table nodes) {k : Nat}
    {ns : ApiEmit.Namespace} (hns : table[k]? = some ns) : L.IsPlace ns.id ⟨k⟩ := by
  rw [Legend.IsPlace, h.places, List.getElem?_map, hns]
  rfl

end

namespace Represents

variable {g : Graph} {a : Arena}

/-- The node of a namespace stands at the position of it. -/
theorem exists_node_at (h : Represents L g a) {i : NamespaceIndex} {ns : ApiEmit.Namespace}
    (hns : g.namespaces[i.position]? = some ns) :
    ∃ node, a.namespace? i = some node ∧ ShowsNamespace L g.operations ns node := by
  have hlt : i.position < a.namespaces.length :=
    h.length_eq ▸ (List.getElem?_eq_some_iff.mp hns).1
  have hnode := List.getElem?_eq_getElem hlt
  exact ⟨_, hnode, h.namespaces _ _ _ hns hnode⟩

/-- An index for a namespace leads to the node of the namespace. -/
theorem exists_namespace (h : Represents L g a) {place : NamespaceId} {i : NamespaceIndex}
    (hi : L.IsPlace place i) : ∃ ns node, g.namespaces[i.position]? = some ns ∧ ns.id = place ∧
      a.namespace? i = some node ∧ ShowsNamespace L g.operations ns node := by
  have hplace : (g.namespaces.map (·.id))[i.position]? = some place := h.places ▸ hi
  rw [List.getElem?_map, Option.map_eq_some_iff] at hplace
  obtain ⟨ns, hns, rfl⟩ := hplace
  obtain ⟨node, hnode, hshows⟩ := h.exists_node_at hns
  exact ⟨ns, node, hns, rfl, hnode, hshows⟩

/-- The node at an index is that of the namespace which the index is for. -/
theorem exists_shows (h : Represents L g a) {i : NamespaceIndex} {node : Namespace}
    (hnode : a.namespace? i = some node) : ∃ ns ∈ g.namespaces, L.IsPlace ns.id i ∧
      ShowsNamespace L g.operations ns node := by
  have hlt : i.position < g.namespaces.length :=
    h.length_eq ▸ (List.getElem?_eq_some_iff.mp hnode).1
  have hns := List.getElem?_eq_getElem hlt
  exact ⟨_, List.mem_of_getElem? hns, h.isPlace_id hns, h.namespaces _ _ _ hns hnode⟩

/-- Each node is that of a namespace of the graph. -/
theorem exists_shows_of_mem (h : Represents L g a) {node : Namespace}
    (hnode : node ∈ a.namespaces) :
    ∃ ns ∈ g.namespaces, ShowsNamespace L g.operations ns node := by
  obtain ⟨i, hi⟩ := List.mem_iff_getElem?.mp hnode
  obtain ⟨ns, hns, _, hshows⟩ := h.exists_shows (i := ⟨i⟩) hi
  exact ⟨ns, hns, hshows⟩

/-- Each namespace of the graph has its node. -/
theorem exists_node_of_mem (h : Represents L g a) {ns : ApiEmit.Namespace}
    (hns : ns ∈ g.namespaces) : ∃ i node, L.IsPlace ns.id i ∧ a.namespace? i = some node ∧
      ShowsNamespace L g.operations ns node := by
  obtain ⟨i, hi⟩ := List.mem_iff_getElem?.mp hns
  obtain ⟨node, hnode, hshows⟩ := h.exists_node_at (i := ⟨i⟩) hi
  exact ⟨⟨i⟩, node, h.isPlace_id hi, hnode, hshows⟩

theorem ids_nodup (h : Represents L g a) : (g.namespaces.map (·.id)).Nodup :=
  h.places ▸ h.places_nodup

theorem position_lt_of_isDecl (h : Represents L g a) {d : DeclId} {i : TypeIndex}
    (hi : L.IsDecl d i) : i.position < a.types.length := by
  have howner : L.owners[i.position]? = some (some d) := Option.join_eq_some_iff.mp hi
  exact Nat.lt_of_lt_of_le (List.getElem?_eq_some_iff.mp howner).1 h.owners_le

theorem position_lt_of_hasInline {node : Node} {i : TypeIndex} (hi : L.HasInline types node i) :
    i.position < types.length :=
  (List.getElem?_eq_some_iff.mp hi.2).1

/-- An index that shows a type leads to a node. -/
theorem position_lt (h : Represents L g a) {t : Ty} {i : TypeIndex} (hi : Shows L a.types t i) :
    i.position < a.types.length := by
  cases hi with
  | ref hi => exact h.position_lt_of_isDecl hi
  | intrinsic hi | string hi | number hi | boolean hi => exact position_lt_of_hasInline hi
  | array hi | record hi | union hi | model hi => exact position_lt_of_hasInline hi

/-- Types may be changed as long as what inline types there are stays, and the nodes of declarations
are what they should be. -/
theorem withTypes (h : Represents L g a) {declarations : List (DeclId × Declaration)}
    (hk : Keeps L a.types L types') (hle : a.types.length ≤ types'.length)
    (hinline : ∀ node i, L.HasInline types' node i → ∃ t, Shows L types' t i)
    (hkinds : ∀ d decl, declarations.lookup d = some decl → Listed g.namespaces d decl.kind)
    (hresolved : ∀ d decl i, declarations.lookup d = some decl → L.IsDecl d i →
      ∃ node, types'[i.position]? = some node ∧ ShowsDeclaration L types' d decl node)
    (hwaiting : ∀ d i, declarations.lookup d = none → L.IsDecl d i →
      types'[i.position]? = some .placeholder) :
    Represents L { g with declarations } { a with types := types' } :=
  { h with
    owners_le := Nat.le_trans h.owners_le hle
    intrinsics := fun k i hi => hk.inline _ _ (h.intrinsics k i hi)
    inline := hinline
    kinds := hkinds
    resolved := hresolved
    waiting := hwaiting
    operations := h.operations.imp fun _ _ hop => hop.mono hk }

end Represents

end Arena

end ApiEmit
