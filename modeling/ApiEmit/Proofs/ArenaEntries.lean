/-
ApiEmit.Proofs.ArenaEntries — an arena that names are being declared in.

While names are declared, every index is one that the legend knows (`Declaring`). A name that is
new in its namespace gets the next index and a placeholder (`Declaring.declare`), and a new
namespace the next place (`Declaring.addNamespace`); what was there stays the form of what it was.
-/
import ApiEmit.Proofs.ArenaFilled

namespace ApiEmit

/-! ## More names in a namespace of a graph -/

namespace Namespace

/-- A namespace with more names of a kind. -/
def extend (kind : Kind) (names : List String) (ns : Namespace) : Namespace :=
  match kind with
  | .model => { ns with models := ns.models ++ names }
  | .enum => { ns with enums := ns.enums ++ names }
  | .union => { ns with unions := ns.unions ++ names }
  | .scalar => { ns with scalars := ns.scalars ++ names }

variable {ns : Namespace} {kind : Kind} {names : List String}

@[simp] theorem id_extend : (ns.extend kind names).id = ns.id := by cases kind <;> rfl

@[simp] theorem doc_extend : (ns.extend kind names).doc = ns.doc := by cases kind <;> rfl

@[simp] theorem service_extend : (ns.extend kind names).service = ns.service := by
  cases kind <;> rfl

@[simp] theorem servers_extend : (ns.extend kind names).servers = ns.servers := by
  cases kind <;> rfl

@[simp] theorem extend_nil : ns.extend kind [] = ns := by
  cases kind <;> simp [extend]

theorem extend_extend (rest : List String) :
    (ns.extend kind names).extend kind rest = ns.extend kind (names ++ rest) := by
  cases kind <;> simp [extend]

theorem listed_extend (other : Kind) : (ns.extend kind names).listed other =
    if other = kind then ns.listed kind ++ names else ns.listed other := by
  cases kind <;> cases other <;> simp [extend, listed]

theorem names_eq (ns : Namespace) :
    ns.declared.map (·.1) = ns.models ++ ns.enums ++ ns.unions ++ ns.scalars := by
  simp [declared, Function.comp_def]

/-- The names are those from before and the new ones. -/
theorem names_extend_perm : ((ns.extend kind names).declared.map (·.1)).Perm
    (names ++ ns.declared.map (·.1)) := by
  rw [List.perm_iff_count, names_eq, names_eq]
  intro name
  cases kind <;> simp only [extend, List.count_append] <;> omega

theorem mem_names_extend_iff {name : String} :
    name ∈ (ns.extend kind names).declared.map (·.1) ↔
      name ∈ names ∨ name ∈ ns.declared.map (·.1) := by
  rw [names_extend_perm.mem_iff, List.mem_append]

theorem mem_declared_extend {name : String} {other : Kind} (h : (name, other) ∈ ns.declared) :
    (name, other) ∈ (ns.extend kind names).declared := by
  rw [mem_declared_iff] at h ⊢
  rw [listed_extend]
  split
  · rename_i heq
    subst heq
    exact List.mem_append_left _ h
  · exact h

/-- A namespace that is changed stays where it is. -/
theorem map_id_set {table : List Namespace} {k : Nat} {ns ns' : Namespace}
    (hns : table[k]? = some ns) (hid : ns'.id = ns.id) :
    (table.set k ns').map (·.id) = table.map (·.id) := by
  have hk : (table.map (·.id))[k]? = some ns'.id := by
    rw [List.getElem?_map, hns, hid]
    rfl
  obtain ⟨hlt, heq⟩ := List.getElem?_eq_some_iff.mp hk
  rw [List.map_set, ← heq, List.set_getElem_self]

end Namespace

/-- What is declared stays declared when namespaces have more names. -/
theorem Listed.set {table : List Namespace} {k : Nat} {ns : Namespace} (ns' : Namespace)
    (hns : table[k]? = some ns) (hid : ns'.id = ns.id)
    (hdeclared : ∀ name kind, (name, kind) ∈ ns.declared → (name, kind) ∈ ns'.declared)
    {d : DeclId} {kind : Kind} (h : Listed table d kind) : Listed (table.set k ns') d kind := by
  obtain ⟨ns₁, hns₁, hid₁, hmem⟩ := h
  obtain ⟨i, hi⟩ := List.mem_iff_getElem?.mp hns₁
  rcases eq_or_ne k i with rfl | hne
  · obtain rfl : ns = ns₁ := Option.some.inj (hns.symm.trans hi)
    have hlt := (List.getElem?_eq_some_iff.mp hns).1
    exact ⟨ns', List.mem_set hlt ns', hid.trans hid₁, hdeclared _ _ hmem⟩
  · exact ⟨ns₁, List.mem_of_getElem? ((List.getElem?_set_ne hne).trans hi), hid₁, hmem⟩

/-- Only one namespace of a table has the identity of an entry. -/
theorem Listed.name_mem {table : List Namespace} (hids : (table.map (·.id)).Nodup)
    {ns : Namespace} (hns : ns ∈ table) {name : String} {kind : Kind}
    (h : Listed table ⟨ns.id, name⟩ kind) : name ∈ ns.declared.map (·.1) := by
  obtain ⟨ns', hns', hid, hmem⟩ := h
  obtain rfl : ns' = ns := List.inj_on_of_nodup_map hids hns' hns hid
  exact List.mem_map_of_mem hmem

namespace Arena

/-! ## More names in a namespace of an arena -/

namespace Namespace

variable {node : Namespace} {kind : Kind} {name : String} {id : TypeIndex}

@[simp] theorem name_list : (node.list kind id).name = node.name := by cases kind <;> rfl

@[simp] theorem parent_list : (node.list kind id).parent = node.parent := by cases kind <;> rfl

@[simp] theorem doc_list : (node.list kind id).doc = node.doc := by cases kind <;> rfl

@[simp] theorem service_list : (node.list kind id).service = node.service := by
  cases kind <;> rfl

@[simp] theorem servers_list : (node.list kind id).servers = node.servers := by
  cases kind <;> rfl

@[simp] theorem children_list : (node.list kind id).children = node.children := by
  cases kind <;> rfl

@[simp] theorem operations_list : (node.list kind id).operations = node.operations := by
  cases kind <;> rfl

@[simp] theorem declared_list : (node.list kind id).declared = node.declared := by
  cases kind <;> rfl

theorem listed_list (other : Kind) : (node.list kind id).listed other =
    if other = kind then node.listed kind ++ [id] else node.listed other := by
  cases kind <;> cases other <;> simp [list, listed]

@[simp] theorem listed_enter : (node.enter name id).listed kind = node.listed kind := by
  cases kind <;> rfl

/-- It makes no difference whether a name is entered or listed first. -/
theorem enter_list : (node.list kind id).enter name id = (node.enter name id).list kind id := by
  cases kind <;> rfl

end Namespace

variable {L L' : Legend} {types types' : List Node} {g : Graph} {a : Arena} {d : DeclId}

/-! ## Legends -/

namespace Legend

/-- A legend in which the next index is for a declaration. -/
def own (L : Legend) (d : DeclId) : Legend :=
  { L with owners := L.owners ++ [some d] }

/-- A legend in which the next index is for a namespace. -/
def settle (L : Legend) (place : NamespaceId) : Legend :=
  { L with places := L.places ++ [place] }

theorem isDecl_own_iff {d' : DeclId} {i : TypeIndex} :
    (L.own d).IsDecl d' i ↔ L.IsDecl d' i ∨ (i.position = L.owners.length ∧ d' = d) := by
  unfold IsDecl owner? own
  rw [Option.join_eq_some_iff, Option.join_eq_some_iff]
  rcases Nat.lt_trichotomy i.position L.owners.length with hlt | heq | hgt
  · simp [List.getElem?_append_left hlt, Nat.ne_of_lt hlt]
  · simp [heq, eq_comm]
  · have hnone : L.owners[i.position]? = none := List.getElem?_eq_none (Nat.le_of_lt hgt)
    have hnone' : (L.owners ++ [some d])[i.position]? = none :=
      List.getElem?_eq_none (by simp; omega)
    simp [hnone, hnone', Nat.ne_of_gt hgt]

theorem isPlace_settle_iff {place place' : NamespaceId} {i : NamespaceIndex} :
    (L.settle place).IsPlace place' i ↔
      L.IsPlace place' i ∨ (i.position = L.places.length ∧ place' = place) := by
  unfold IsPlace settle
  rcases Nat.lt_trichotomy i.position L.places.length with hlt | heq | hgt
  · simp [List.getElem?_append_left hlt, Nat.ne_of_lt hlt]
  · simp [heq, eq_comm]
  · have hnone : L.places[i.position]? = none := List.getElem?_eq_none (Nat.le_of_lt hgt)
    have hnone' : (L.places ++ [place])[i.position]? = none :=
      List.getElem?_eq_none (by simp; omega)
    simp [hnone, hnone', Nat.ne_of_gt hgt]

end Legend

/-- Where every index is known, the next one is the one that a legend gives away. -/
theorem keeps_own (hfull : L.owners.length = types.length) (d : DeclId) (node : Node) :
    Keeps L types (L.own d) (types ++ [node]) where
  place _ _ h := h
  decl _ _ h := Legend.isDecl_own_iff.mpr (.inl h)
  inline n i h := by
    have hlt := Represents.position_lt_of_hasInline h
    have howner : (L.own d).owner? i = L.owner? i := by
      unfold Legend.owner? Legend.own
      rw [List.getElem?_append_left (hfull ▸ hlt)]
    exact ⟨howner.trans h.1, (List.getElem?_append_left hlt).trans h.2⟩

theorem keeps_settle (L : Legend) (types : List Node) (place : NamespaceId) :
    Keeps L types (L.settle place) types where
  place _ _ h := Legend.isPlace_settle_iff.mpr (.inl h)
  decl _ _ h := h
  inline _ _ h := h

/-! ## One namespace of an arena -/

theorem ShowsNamespace.mono {operations : List ApiEmit.Operation} {ns : ApiEmit.Namespace}
    {node : Namespace} (hdecl : ∀ d i, L.IsDecl d i → L'.IsDecl d i)
    (hplaces : L'.places = L.places) (h : ShowsNamespace L operations ns node) :
    ShowsNamespace L' operations ns node := by
  have hplace : L'.IsPlace = L.IsPlace := by
    unfold Legend.IsPlace
    rw [hplaces]
  exact
    { h with
      parent := hplace ▸ h.parent
      children := hplace ▸ hplaces ▸ h.children
      listed := fun kind => (h.listed kind).imp fun _ _ hi => hdecl _ _ hi
      declared := fun entry hentry => hdecl _ _ (h.declared entry hentry) }

/-- Changing one namespace, which stays where it is. -/
theorem ShowsTree.set {operations : List ApiEmit.Operation} {table : List ApiEmit.Namespace}
    {nodes : List Namespace} (h : ShowsTree L operations table nodes)
    (hdecl : ∀ d i, L.IsDecl d i → L'.IsDecl d i) (hplaces : L'.places = L.places) {k : Nat}
    {ns ns' : ApiEmit.Namespace} {node node' : Namespace} (hns : table[k]? = some ns)
    (hnode : nodes[k]? = some node) (hid : ns'.id = ns.id) (hparent : node'.parent = node.parent)
    (hnames : (ns'.declared.map (·.1)).Nodup) (hshows : ShowsNamespace L' operations ns' node') :
    ShowsTree L' operations (table.set k ns') (nodes.set k node') := by
  have hplace : L'.IsPlace = L.IsPlace := by
    unfold Legend.IsPlace
    rw [hplaces]
  have hltTable : k < table.length := (List.getElem?_eq_some_iff.mp hns).1
  have hltNodes : k < nodes.length := (List.getElem?_eq_some_iff.mp hnode).1
  refine
    { places := hplaces.trans (h.places.trans (ApiEmit.Namespace.map_id_set hns hid).symm)
      places_nodup := hplaces ▸ h.places_nodup
      root := hplace ▸ h.root
      library := hplace ▸ h.library
      length_eq := by simpa using h.length_eq
      namespaces := fun i ns₁ node₁ hns₁ hnode₁ => ?_
      parent_lt := fun i node₁ outer hnode₁ houter => ?_
      names_nodup := fun ns₁ hns₁ => ?_ }
  · rcases eq_or_ne k i with rfl | hne
    · rw [List.getElem?_set_self hltTable, Option.some.injEq] at hns₁
      rw [List.getElem?_set_self hltNodes, Option.some.injEq] at hnode₁
      exact hns₁ ▸ hnode₁ ▸ hshows
    · rw [List.getElem?_set_ne hne] at hns₁ hnode₁
      exact (h.namespaces i _ _ hns₁ hnode₁).mono hdecl hplaces
  · rcases eq_or_ne k i with rfl | hne
    · rw [List.getElem?_set_self hltNodes, Option.some.injEq] at hnode₁
      rw [← hnode₁, hparent] at houter
      exact h.parent_lt k node outer hnode houter
    · rw [List.getElem?_set_ne hne] at hnode₁
      exact h.parent_lt i node₁ outer hnode₁ houter
  · rcases List.mem_or_eq_of_mem_set hns₁ with hmem | rfl
    · exact h.names_nodup ns₁ hmem
    · exact hnames

/-! ## Declaring a name -/

/-- An arena that names are being declared in: every index is known, and there are no operations
yet. -/
structure Declaring (L : Legend) (g : Graph) (a : Arena) : Prop extends Represents L g a where
  full : L.owners.length = a.types.length
  noOperations : g.operations = []

/-- The types stay what they are when namespaces have more names. -/
theorem ShowsTypes.listed (h : ShowsTypes L types g) {table : List ApiEmit.Namespace}
    (hlisted : ∀ d kind, Listed g.namespaces d kind → Listed table d kind) :
    ShowsTypes L types { g with namespaces := table } :=
  { h with
    owner_listed := fun d i hi => (h.owner_listed d i hi).imp fun kind => hlisted d kind
    kinds := fun d decl hd => hlisted d _ (h.kinds d decl hd) }

/-- A new declaration has the next index, and a placeholder for its node. -/
theorem ShowsTypes.own (h : ShowsTypes L types g) (hfull : L.owners.length = types.length)
    (hfresh : ∀ i, ¬ L.IsDecl d i) (hnew : g.declaration? d = none) {kind : Kind}
    (hd : Listed g.namespaces d kind) : ShowsTypes (L.own d) (types ++ [.placeholder]) g := by
  have hk := keeps_own hfull d .placeholder
  have hold : ∀ (i : TypeIndex) n, types[i.position]? = some n →
      (types ++ [.placeholder])[i.position]? = some n := fun i n hi =>
    (List.getElem?_append_left (List.getElem?_eq_some_iff.mp hi).1).trans hi
  refine
    { owner_inj := fun d' i j hi hj => ?_
      owner_listed := fun d' i hi => ?_
      owners_le := by simp [Legend.own, hfull]
      intrinsics := fun k i hi => hk.inline _ _ (h.intrinsics k i hi)
      inline := fun n i hi => ?_
      kinds := h.kinds
      resolved := fun d' decl i hd' hi => ?_
      waiting := fun d' i hd' hi => ?_ }
  · rcases Legend.isDecl_own_iff.mp hi with hold | ⟨hlast, rfl⟩
    · rcases Legend.isDecl_own_iff.mp hj with hold' | ⟨_, rfl⟩
      · exact h.owner_inj d' i j hold hold'
      · exact absurd hold (hfresh i)
    · rcases Legend.isDecl_own_iff.mp hj with hold' | ⟨hlast', _⟩
      · exact absurd hold' (hfresh j)
      · exact TypeIndex.ext (hlast.trans hlast'.symm)
  · rcases Legend.isDecl_own_iff.mp hi with hi | ⟨_, rfl⟩
    · exact h.owner_listed d' i hi
    · exact ⟨kind, hd⟩
  · rcases Nat.lt_or_ge i.position types.length with hlt | hge
    · have howner : (L.own d).owner? i = L.owner? i := by
        unfold Legend.owner? Legend.own
        rw [List.getElem?_append_left (hfull ▸ hlt)]
      have hinline : L.HasInline types n i :=
        ⟨howner ▸ hi.1, (List.getElem?_append_left hlt).symm.trans hi.2⟩
      obtain ⟨t, ht⟩ := h.inline n i hinline
      exact ⟨t, ht.mono hk⟩
    · have hlast : i.position = L.owners.length := by
        have hlt := Represents.position_lt_of_hasInline hi
        rw [List.length_append, List.length_singleton] at hlt
        omega
      have howner : (L.own d).IsDecl d i := Legend.isDecl_own_iff.mpr (.inr ⟨hlast, rfl⟩)
      exact absurd (howner.symm.trans hi.1) (Option.some_ne_none _)
  · rcases Legend.isDecl_own_iff.mp hi with hi | ⟨_, rfl⟩
    · obtain ⟨n, hn, hshows⟩ := h.resolved d' decl i hd' hi
      exact ⟨n, hold i n hn, hshows.mono hk⟩
    · exact absurd (hd'.symm.trans hnew) (Option.some_ne_none _)
  · rcases Legend.isDecl_own_iff.mp hi with hi | ⟨hlast, rfl⟩
    · exact hold i _ (h.waiting d' i hd' hi)
    · rw [hlast, hfull]
      simp

/-- The node of a namespace with one more declaration. -/
theorem ShowsNamespace.declare {operations : List ApiEmit.Operation} {ns : ApiEmit.Namespace}
    {node : Namespace} (h : ShowsNamespace L operations ns node) {kind : Kind} {name : String}
    (hname : name ∉ ns.declared.map (·.1)) {id : TypeIndex}
    (hid : id.position = L.owners.length) :
    ShowsNamespace (L.own ⟨ns.id, name⟩) operations (ns.extend kind [name])
      ((node.enter name id).list kind id) := by
  have hdecl : (L.own ⟨ns.id, name⟩).IsDecl ⟨ns.id, name⟩ id :=
    Legend.isDecl_own_iff.mpr (.inr ⟨hid, rfl⟩)
  have hown : ∀ d i, L.IsDecl d i → (L.own ⟨ns.id, name⟩).IsDecl d i := fun _ _ hi =>
    Legend.isDecl_own_iff.mpr (.inl hi)
  have hmono : ShowsNamespace (L.own ⟨ns.id, name⟩) operations ns node := h.mono hown rfl
  have hentered : (node.enter name id).declared = node.declared ++ [(name, id)] :=
    Keyed.put_of_not_mem fun hmem => hname ((h.names name).mp hmem)
  refine
    { name := by simpa [Namespace.enter] using hmono.name
      parent := by simpa [Namespace.enter] using hmono.parent
      doc := by simpa [Namespace.enter] using hmono.doc
      service := by simpa [Namespace.enter] using hmono.service
      servers := by simpa [Namespace.enter] using hmono.servers
      children := by simpa [Namespace.enter] using hmono.children
      listed := fun other => ?_
      declared := fun entry hentry => ?_
      names := fun other => ?_
      operations := by simpa [Namespace.enter] using hmono.operations }
  · rw [Namespace.listed_list, Namespace.listed_enter, Namespace.listed_enter,
      ApiEmit.Namespace.listed_extend, ApiEmit.Namespace.id_extend]
    split
    · exact List.rel_append (hmono.listed kind) (.cons hdecl .nil)
    · exact hmono.listed other
  · rw [Namespace.declared_list, hentered] at hentry
    rw [ApiEmit.Namespace.id_extend]
    rcases List.mem_append.mp hentry with hentry | hentry
    · exact hmono.declared entry hentry
    · obtain rfl := List.mem_singleton.mp hentry
      exact hdecl
  · rw [Namespace.declared_list, hentered, List.map_append, List.mem_append, h.names,
      ApiEmit.Namespace.mem_names_extend_iff, List.map_singleton, or_comm]

namespace Declaring

/-- A declared name has the next index. -/
theorem declare (h : Declaring L g a) {k : Nat} {ns : ApiEmit.Namespace} {node : Namespace}
    (hns : g.namespaces[k]? = some ns) (hnode : a.namespaces[k]? = some node) (kind : Kind)
    {name : String} (hname : name ∉ ns.declared.map (·.1)) :
    Declaring (L.own ⟨ns.id, name⟩)
      { g with namespaces := g.namespaces.set k (ns.extend kind [name]) }
      { a with
        types := a.types ++ [.placeholder]
        namespaces := a.namespaces.set k
          ((node.enter name ⟨a.types.length⟩).list kind ⟨a.types.length⟩) } := by
  have hmem : ns ∈ g.namespaces := List.mem_of_getElem? hns
  have hlt : k < g.namespaces.length := (List.getElem?_eq_some_iff.mp hns).1
  have hdecl : ∀ d i, L.IsDecl d i → (L.own ⟨ns.id, name⟩).IsDecl d i := fun _ _ hi =>
    Legend.isDecl_own_iff.mpr (.inl hi)
  have hfresh : ∀ i, ¬ L.IsDecl ⟨ns.id, name⟩ i := by
    intro i hi
    obtain ⟨_, hlisted⟩ := h.owner_listed _ i hi
    exact hname (hlisted.name_mem h.ids_nodup hmem)
  have hnew : g.declaration? ⟨ns.id, name⟩ = none := by
    rw [← Option.not_isSome_iff_eq_none, Option.isSome_iff_exists]
    rintro ⟨decl, hd⟩
    exact hname ((h.kinds _ decl hd).name_mem h.ids_nodup hmem)
  have hlisted : ∀ d kind', Listed g.namespaces d kind' →
      Listed (g.namespaces.set k (ns.extend kind [name])) d kind' := fun _ _ hd =>
    hd.set _ hns ApiEmit.Namespace.id_extend fun _ _ => ApiEmit.Namespace.mem_declared_extend
  have hself : Listed (g.namespaces.set k (ns.extend kind [name])) ⟨ns.id, name⟩ kind := by
    refine ⟨_, List.mem_set hlt _, ApiEmit.Namespace.id_extend, ?_⟩
    rw [ApiEmit.Namespace.mem_declared_iff, ApiEmit.Namespace.listed_extend, if_pos rfl]
    exact List.mem_append_right _ List.mem_cons_self
  have hnames : ((ns.extend kind [name]).declared.map (·.1)).Nodup := by
    rw [ApiEmit.Namespace.names_extend_perm.nodup_iff, List.singleton_append, List.nodup_cons]
    exact ⟨hname, h.names_nodup ns hmem⟩
  have hshows : ShowsNamespace (L.own ⟨ns.id, name⟩) g.operations (ns.extend kind [name])
      ((node.enter name ⟨a.types.length⟩).list kind ⟨a.types.length⟩) :=
    (h.namespaces k ns node hns hnode).declare hname h.full.symm
  have htree := h.toShowsTree.set hdecl rfl hns hnode ApiEmit.Namespace.id_extend
    (by simp [Namespace.enter]) hnames hshows
  have htypes := (h.toShowsTypes.listed hlisted).own h.full hfresh hnew hself
  exact
    { toShowsTree := htree
      toShowsTypes := htypes
      global := h.global
      operations := h.operations.imp fun _ _ hop => hop.mono (keeps_own h.full _ _)
      diagnostics := h.diagnostics
      full := by simp [Legend.own, h.full]
      noOperations := h.noOperations }

/-- What a namespace says about itself is noted. -/
theorem describe (h : Declaring L g a) {k : Nat} {ns : ApiEmit.Namespace} {node : Namespace}
    (hns : g.namespaces[k]? = some ns) (hnode : a.namespaces[k]? = some node)
    (doc : Option String) (service : Option ServiceMark) (servers : List Server) :
    Declaring L { g with namespaces := g.namespaces.set k { ns with doc, service, servers } }
      { a with namespaces := a.namespaces.set k { node with doc, service, servers } } := by
  have hshows := h.namespaces k ns node hns hnode
  have hlisted : ∀ d kind, Listed g.namespaces d kind →
      Listed (g.namespaces.set k { ns with doc, service, servers }) d kind := fun _ _ hd =>
    hd.set { ns with doc, service, servers } hns rfl fun _ _ hmem => hmem
  exact
    { toShowsTree := h.toShowsTree.set (fun _ _ hi => hi) rfl hns hnode rfl rfl
        (h.names_nodup ns (List.mem_of_getElem? hns))
        { hshows with doc := rfl, service := rfl, servers := rfl }
      toShowsTypes := h.toShowsTypes.listed hlisted
      global := h.global
      operations := h.operations
      diagnostics := h.diagnostics
      full := h.full
      noOperations := h.noOperations }

end Declaring

/-! ## Adding a namespace -/

variable {operations : List ApiEmit.Operation} {table : List ApiEmit.Namespace}
  {nodes : List Namespace}

/-- The namespace around one is there. -/
theorem ShowsTree.parent_mem (h : ShowsTree L operations table nodes) {place outer : NamespaceId}
    (hplace : place ∈ L.places) (houter : place.parent? = some outer) : outer ∈ L.places := by
  rw [h.places] at hplace
  obtain ⟨ns, hns, rfl⟩ := List.mem_map.mp hplace
  obtain ⟨i, hi⟩ := List.mem_iff_getElem?.mp hns
  have hlt : i < nodes.length := h.length_eq ▸ (List.getElem?_eq_some_iff.mp hi).1
  have hparent := (h.namespaces i _ _ hi (List.getElem?_eq_getElem hlt)).parent
  rw [houter] at hparent
  obtain ⟨hnone, _⟩ | ⟨_, j, heq, _, hj⟩ := Aligned.option_cases hparent
  · cases hnone
  · cases heq
    exact List.mem_of_getElem? hj

/-- The children of a namespace that a new one does not lie right below. -/
theorem ShowsNamespace.settle {ns : ApiEmit.Namespace}
    {node : Namespace} (h : ShowsNamespace L operations ns node) {place : NamespaceId}
    (hplace : place.parent? ≠ some ns.id) :
    ShowsNamespace (L.settle place) operations ns node := by
  have hk := keeps_settle L [] place
  have hchildren : (L.settle place).places.filter (·.parent? == some ns.id) =
      L.places.filter (·.parent? == some ns.id) := by
    simp [Legend.settle, hplace]
  exact
    { h with
      parent := Aligned.option_imp hk.place h.parent
      children := hchildren ▸ h.children.imp hk.place
      listed := h.listed
      declared := h.declared }

/-- The children of the namespace that a new one lies right below. -/
theorem ShowsNamespace.settle_child {ns : ApiEmit.Namespace}
    {node : Namespace} (h : ShowsNamespace L operations ns node)
    {place : NamespaceId} (hplace : place.parent? = some ns.id) {i : NamespaceIndex}
    (hi : i.position = L.places.length) :
    ShowsNamespace (L.settle place) operations ns
      { node with children := node.children ++ [i] } := by
  have hk := keeps_settle L [] place
  have hself : (L.settle place).IsPlace place i := Legend.isPlace_settle_iff.mpr (.inr ⟨hi, rfl⟩)
  have hchildren : (L.settle place).places.filter (·.parent? == some ns.id) =
      L.places.filter (·.parent? == some ns.id) ++ [place] := by
    simp [Legend.settle, hplace]
  exact
    { h with
      parent := Aligned.option_imp hk.place h.parent
      children := hchildren ▸ List.rel_append (h.children.imp hk.place) (.cons hself .nil)
      listed := h.listed
      declared := h.declared }

/-- A namespace with nothing in it. -/
def vacant (id : NamespaceId) : ApiEmit.Namespace :=
  { id, doc := none, service := none, servers := [], models := [], enums := [], unions := [],
    scalars := [] }

/-- A new namespace has nothing below it, as all that is there stands below what is there. -/
theorem ShowsTree.vacant_shows (h : ShowsTree L [] table nodes) {k : Nat}
    {ns : ApiEmit.Namespace} (hns : table[k]? = some ns) {position : Nat} {name : String}
    (hnew : ns.id.child position name ∉ L.places) :
    ShowsNamespace (L.settle (ns.id.child position name)) []
      (vacant (ns.id.child position name)) { name, parent := some ⟨k⟩ } := by
  have hchildren : (L.settle (ns.id.child position name)).places.filter
      (·.parent? == some (ns.id.child position name)) = [] := by
    rw [List.filter_eq_nil_iff]
    intro place hplace hparent
    rw [beq_iff_eq] at hparent
    rcases List.mem_append.mp hplace with hold | hself
    · exact hnew (h.parent_mem hold hparent)
    · rw [List.mem_singleton.mp hself, NamespaceId.parent?_child, Option.some.injEq] at hparent
      have hlength := congrArg (fun id : NamespaceId => id.segments.length) hparent
      simp [NamespaceId.length_child] at hlength
  refine
    { name := rfl
      parent := .some (Legend.isPlace_settle_iff.mpr (.inl (h.isPlace_id hns)))
      doc := rfl
      service := rfl
      servers := rfl
      children := ?_
      listed := fun kind => ?_
      declared := nofun
      names := fun _ => Iff.rfl
      operations := rfl }
  · change List.Forall₂ _ ((L.settle (ns.id.child position name)).places.filter
      (·.parent? == some (ns.id.child position name))) []
    rw [hchildren]
    exact .nil
  · cases kind <;> exact .nil

/-- What stands in a list with a new entry at the end and one entry changed: the changed entry, what
was there, or the new one. -/
theorem entry_cases {changed new node' : Namespace} {k i : Nat} (hk : k < nodes.length)
    (hi : ((nodes ++ [new]).set k changed)[i]? = some node') :
    (i = k ∧ node' = changed) ∨ (i ≠ k ∧ nodes[i]? = some node') ∨
      (i = nodes.length ∧ node' = new) := by
  rcases eq_or_ne k i with rfl | hne
  · rw [List.getElem?_set_self (by simp; omega), Option.some.injEq] at hi
    exact .inl ⟨rfl, hi.symm⟩
  · rw [List.getElem?_set_ne hne] at hi
    rcases Nat.lt_trichotomy i nodes.length with hlt | rfl | hgt
    · rw [List.getElem?_append_left hlt] at hi
      exact .inr (.inl ⟨hne.symm, hi⟩)
    · rw [List.getElem?_concat_length, Option.some.injEq] at hi
      exact .inr (.inr ⟨rfl, hi.symm⟩)
    · rw [List.getElem?_eq_none (by simp; omega)] at hi
      cases hi

theorem ShowsTree.addNamespace (h : ShowsTree L [] table nodes) {k : Nat}
    {ns : ApiEmit.Namespace} {node : Namespace} (hns : table[k]? = some ns)
    (hnode : nodes[k]? = some node) {position : Nat} {name : String}
    (hnew : ns.id.child position name ∉ L.places) :
    ShowsTree (L.settle (ns.id.child position name)) []
      (table ++ [vacant (ns.id.child position name)])
      ((nodes ++ [({ name, parent := some ⟨k⟩ } : Namespace)]).set k
        { node with children := node.children ++ [⟨nodes.length⟩] }) := by
  have hk := keeps_settle L [] (ns.id.child position name)
  have hltNodes : k < nodes.length := (List.getElem?_eq_some_iff.mp hnode).1
  have hlength : L.places.length = nodes.length := by
    rw [h.places, List.length_map, h.length_eq]
  refine
    { places := by simp [Legend.settle, h.places, vacant]
      places_nodup := ?_
      root := hk.place _ _ h.root
      library := hk.place _ _ h.library
      length_eq := by simp [h.length_eq]
      namespaces := fun i ns' node' hns' hnode' => ?_
      parent_lt := fun i node' outer hnode' houter => ?_
      names_nodup := fun ns' hns' => ?_ }
  · rw [Legend.settle, List.nodup_append_comm, List.singleton_append, List.nodup_cons]
    exact ⟨hnew, h.places_nodup⟩
  · rcases entry_cases hltNodes hnode' with ⟨rfl, rfl⟩ | ⟨hne, hold⟩ | ⟨rfl, rfl⟩
    · rw [List.getElem?_append_left (h.length_eq ▸ hltNodes), hns, Option.some.injEq] at hns'
      exact hns' ▸ (h.namespaces i ns node hns hnode).settle_child rfl hlength.symm
    · have hlt : i < table.length := h.length_eq ▸ (List.getElem?_eq_some_iff.mp hold).1
      rw [List.getElem?_append_left hlt] at hns'
      refine (h.namespaces i ns' node' hns' hold).settle fun hparent => hne ?_
      have hid : ns.id = ns'.id := Option.some.inj hparent
      have hi : (⟨i⟩ : NamespaceIndex) = ⟨k⟩ :=
        h.isPlace_inj (hid ▸ h.isPlace_id hns') (h.isPlace_id hns)
      exact congrArg NamespaceIndex.position hi
    · rw [h.length_eq, List.getElem?_concat_length, Option.some.injEq] at hns'
      exact hns' ▸ h.vacant_shows hns hnew
  · rcases entry_cases hltNodes hnode' with ⟨rfl, rfl⟩ | ⟨_, hold⟩ | ⟨rfl, rfl⟩
    · exact h.parent_lt i node outer hnode houter
    · exact h.parent_lt i node' outer hold houter
    · cases houter
      exact hltNodes
  · rcases List.mem_append.mp hns' with hold | hself
    · exact h.names_nodup ns' hold
    · rw [List.mem_singleton.mp hself]
      exact List.nodup_nil

theorem ShowsTypes.settle (h : ShowsTypes L types g) (place : NamespaceId) :
    ShowsTypes (L.settle place) types g :=
  { owner_inj := h.owner_inj
    owner_listed := h.owner_listed
    owners_le := h.owners_le
    intrinsics := h.intrinsics
    inline := fun node i hi => (h.inline node i hi).imp fun _ ht => ht.mono (keeps_settle L types _)
    kinds := h.kinds
    resolved := fun d decl i hd hi => (h.resolved d decl i hd hi).imp fun _ hnode =>
      ⟨hnode.1, hnode.2.mono (keeps_settle L types _)⟩
    waiting := h.waiting }

/-- A new namespace has the next place. -/
theorem Declaring.addNamespace (h : Declaring L g a) {k : Nat} {ns : ApiEmit.Namespace}
    {node : Namespace} (hns : g.namespaces[k]? = some ns) (hnode : a.namespaces[k]? = some node)
    {position : Nat} {name : String} (hnew : ns.id.child position name ∉ L.places) :
    Declaring (L.settle (ns.id.child position name))
      { g with namespaces := g.namespaces ++ [vacant (ns.id.child position name)] }
      { a with
        namespaces := (a.namespaces ++ [({ name, parent := some ⟨k⟩ } : Namespace)]).set k
          { node with children := node.children ++ [⟨a.namespaces.length⟩] } } := by
  have htree : ShowsTree L [] g.namespaces a.namespaces := h.noOperations ▸ h.toShowsTree
  have hlisted : ∀ d kind, Listed g.namespaces d kind →
      Listed (g.namespaces ++ [vacant (ns.id.child position name)]) d kind := by
    rintro d kind ⟨ns', hns', hid, hmem⟩
    exact ⟨ns', List.mem_append_left _ hns', hid, hmem⟩
  have htree' := htree.addNamespace hns hnode hnew
  rw [← h.noOperations] at htree'
  exact
    { toShowsTree := htree'
      toShowsTypes := (h.toShowsTypes.listed hlisted).settle _
      global := h.global
      operations := h.operations.imp fun _ _ hop => hop.mono (keeps_settle L a.types _)
      diagnostics := h.diagnostics
      full := h.full
      noOperations := h.noOperations }

end Arena

end ApiEmit
