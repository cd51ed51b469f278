/-
ApiEmit.Proofs.Scoping — what a name means, read off the document.

Loading looks names up in a table of all namespaces. Here the same is said of the tree that the
document is: `Names` follows a path down the tree from a namespace, and `Means` tries the
namespaces around a place from the innermost outwards, then the intrinsics, then the built-in
scalars. The table and the tree agree (`lookup?_iff`), wherever a name stands.
-/
import ApiEmit.Proofs.Joined
import ApiEmit.Proofs.Keyed
import ApiEmit.Proofs.Sites

namespace ApiEmit

namespace Document

/-! ## The scoping rule -/

/-- The names declared in a namespace, with their kinds. -/
def Namespace.declared (ns : Namespace) : List (String × Kind) :=
  ns.models.map (·.name, .model) ++ ns.enums.map (·.name, .enum) ++
    ns.unions.map (·.name, .union) ++ ns.scalars.map (·.name, .scalar)

/-- The built-in scalars as a namespace. -/
def library : Namespace :=
  { name := NamespaceId.reservedName
    scalars := Library.scalars.map fun (name, base) => ⟨name, none, base, {}⟩ }

/-- The namespaces that a name can lead to from the first of some nested ones. The global
namespace, which has none around it, has the built-in scalars ahead of its own children. -/
def children : List Namespace → List Namespace
  | [] => []
  | [root] => library :: root.namespaces
  | ns :: _ :: _ => ns.namespaces

/-- A path leads from the first of some nested namespaces to a declaration: each segment but the
last to the first child of that name, and the last to what is declared there. -/
inductive Names : List Namespace → List String → Kind → Prop
  | declared {ns : Namespace} {around : List Namespace} {name : String} {kind : Kind}
      (h : (name, kind) ∈ ns.declared) : Names (ns :: around) [name] kind
  | through {scope : List Namespace} {segment : String} {rest : List String} {c : Namespace}
      {kind : Kind} (hc : (children scope).find? (·.name == segment) = some c)
      (h : Names (c :: scope) rest kind) : Names scope (segment :: rest) kind

theorem not_names_nil {scope : List Namespace} {kind : Kind} : ¬ Names scope [] kind := nofun

/-- A path of one segment leads to what is declared in the first namespace. -/
theorem names_singleton_iff {ns : Namespace} {around : List Namespace} {name : String}
    {kind : Kind} : Names (ns :: around) [name] kind ↔ (name, kind) ∈ ns.declared := by
  constructor
  · intro h
    cases h with
    | declared hmem => exact hmem
    | through _ hrest => exact absurd hrest not_names_nil
  · exact .declared

/-- A longer path goes on in the first child of its first name. -/
theorem names_cons_cons_iff {scope : List Namespace} {segment next : String} {rest : List String}
    {kind : Kind} : Names scope (segment :: next :: rest) kind ↔
      ∃ c, (children scope).find? (·.name == segment) = some c ∧
        Names (c :: scope) (next :: rest) kind := by
  constructor
  · intro h
    cases h with
    | through hc hrest => exact ⟨_, hc, hrest⟩
  · rintro ⟨c, hc, hrest⟩
    exact .through hc hrest

/-- What a name can mean: a declaration of some kind, or an intrinsic. -/
inductive Meaning where
  | declaration (kind : Kind)
  | intrinsic (i : Intrinsic)

/-- The meaning of a name within some nested namespaces, the innermost first. -/
inductive Means (name : String) : List Namespace → Meaning → Prop
  | inside {ns : Namespace} {around : List Namespace} {kind : Kind}
      (h : Names (ns :: around) (Text.split '.' name) kind) :
      Means name (ns :: around) (.declaration kind)
  | outside {ns : Namespace} {around : List Namespace} {meaning : Meaning}
      (hn : ∀ kind, ¬ Names (ns :: around) (Text.split '.' name) kind)
      (h : Means name around meaning) : Means name (ns :: around) meaning
  | intrinsic {i : Intrinsic} (hi : i ≠ .error) (h : name = i.name) :
      Means name [] (.intrinsic i)
  | builtIn {kind : Kind} (hn : ∀ i : Intrinsic, i ≠ .error → name ≠ i.name)
      (h : (name, kind) ∈ library.declared) : Means name [] (.declaration kind)

/-- A name has a meaning. -/
def Resolves (scope : List Namespace) (name : String) : Prop :=
  ∃ meaning, Means name scope meaning

/-- The nested namespaces at a place of a document, from the innermost to the global one. -/
inductive Scope (doc : Document) : NamespaceId → List Namespace → Prop
  | root : Scope doc .root [doc.root]
  | child {id : NamespaceId} {ns c : Namespace} {around : List Namespace} {i : Nat}
      (h : Scope doc id (ns :: around)) (hc : ns.namespaces[i]? = some c) :
      Scope doc (id.child (i + 1) c.name) (c :: ns :: around)

/-- In no namespace is a name declared twice. -/
def Distinct (doc : Document) : Prop :=
  ∀ id ns around, Scope doc id (ns :: around) → (ns.declared.map (·.1)).Nodup

end Document

namespace Load

open Document (Names Means Meaning)

/-! ## The table of namespaces -/

theorem declared_declare (s : Site) : s.declare.declared = s.content.declared := by
  simp [Namespace.declared, Document.Namespace.declared, Site.declare, Function.comp_def]

/-- All namespaces of a program with what is written in them, the built-in ones included. -/
def known (doc : Document) : List Site :=
  ⟨.root, doc.root⟩ :: ⟨.library, Document.library⟩ :: sitesBelow .root 1 doc.root.namespaces

/-- The table that names are looked up in. -/
def table (doc : Document) : List Namespace :=
  (known doc).map Site.declare

theorem table_eq (doc : Document) :
    table doc = (⟨.root, doc.root⟩ : Site).declare :: Library.namespaceEntry ::
      (sitesBelow .root 1 doc.root.namespaces).map (·.declare) := by
  have hlibrary : (⟨.library, Document.library⟩ : Site).declare = Library.namespaceEntry := by
    simp [Site.declare, Library.namespaceEntry, Document.library]
  unfold table known
  rw [List.map_cons, List.map_cons, hlibrary]

/-- The built-in scalars stand apart from all that is written. -/
theorem not_library_suffix {doc : Document} {s : Site}
    (hs : s ∈ sitesBelow .root 1 doc.root.namespaces) :
    ¬ NamespaceId.library.segments <:+ s.id.segments :=
  not_suffix_of_mem_sitesBelow hs (List.suffix_refl _)

theorem known_ids_nodup (doc : Document) : ((known doc).map (·.id)).Nodup := by
  have hsites := sites_ids_nodup .root doc.root
  rw [sites_eq, List.map_cons, List.nodup_cons] at hsites
  unfold known
  rw [List.map_cons, List.map_cons, List.nodup_cons, List.nodup_cons, List.mem_cons, not_or]
  have hroot : NamespaceId.root ≠ NamespaceId.library := by decide
  refine ⟨⟨hroot, hsites.1⟩, fun hmem => ?_, hsites.2⟩
  obtain ⟨s, hs, hid⟩ := List.mem_map.mp hmem
  have hsuffix : s.id.segments <:+ s.id.segments := List.suffix_refl _
  exact not_library_suffix hs (hid ▸ hsuffix)

/-- The nested namespaces at a place where a name can lead to. -/
def Stands (doc : Document) (id : NamespaceId) (scope : List Document.Namespace) : Prop :=
  Document.Scope doc id scope ∨ (id = .library ∧ scope = [Document.library, doc.root])

theorem mem_sites_of_scope {doc : Document} {id : NamespaceId} {ns : Document.Namespace}
    {around : List Document.Namespace} (h : Document.Scope doc id (ns :: around)) :
    ⟨id, ns⟩ ∈ sites .root doc.root := by
  generalize hscope : ns :: around = scope at h
  induction h generalizing ns around with
  | root =>
    cases hscope
    rw [sites_eq]
    exact List.mem_cons_self
  | @child id outer c outside i _ hc ih =>
    cases hscope
    apply mem_sites_of_mem_childSites (ih rfl)
    rw [mem_childSites_iff]
    exact ⟨i, hc, by rw [Nat.add_comm]⟩

/-- The scope of a child is that of its parent with the child inside. -/
theorem scope_of_mem_childSites {doc : Document} {id : NamespaceId} {ns : Document.Namespace}
    {around : List Document.Namespace} (h : Document.Scope doc id (ns :: around)) {s : Site}
    (hs : s ∈ childSites id 1 ns.namespaces) :
    Document.Scope doc s.id (s.content :: ns :: around) := by
  obtain ⟨i, hi, hid⟩ := mem_childSites_iff.mp hs
  rw [hid, Nat.add_comm]
  exact Document.Scope.child h hi

/-- Every site of a document has a scope. -/
theorem exists_scope_of_mem (doc : Document) :
    (∀ id ns, ∀ around, Document.Scope doc id (ns :: around) → ∀ s ∈ sites id ns,
      ∃ around', Document.Scope doc s.id (s.content :: around')) ∧
    ∀ id position rest, (∀ s ∈ childSites id position rest,
        ∃ around', Document.Scope doc s.id (s.content :: around')) →
      ∀ s ∈ sitesBelow id position rest,
        ∃ around', Document.Scope doc s.id (s.content :: around') := by
  apply sites_induction
  · intro id ns ih around h s hs
    rw [sites_eq, List.mem_cons] at hs
    rcases hs with rfl | hs
    · exact ⟨around, h⟩
    · exact ih (fun c hc => ⟨ns :: around, scope_of_mem_childSites h hc⟩) s hs
  · intro id position _ s hs
    cases hs
  · intro id position ns rest ihFirst ihRest h s hs
    rw [sitesBelow, List.mem_append] at hs
    rcases hs with hs | hs
    · obtain ⟨around', hscope⟩ := h _ List.mem_cons_self
      exact ihFirst around' hscope s hs
    · exact ihRest (fun c hc => h c (List.mem_cons_of_mem _ hc)) s hs

theorem mem_sites_iff {doc : Document} {s : Site} :
    s ∈ sites .root doc.root ↔ ∃ around, Document.Scope doc s.id (s.content :: around) := by
  constructor
  · exact (exists_scope_of_mem doc).1 _ _ [] Document.Scope.root s
  · intro h
    obtain ⟨around, h⟩ := h
    exact mem_sites_of_scope h

/-- The sites of a document are its places. -/
theorem forall_sites_iff {doc : Document} {P : Site → Prop} :
    (∀ s ∈ sites .root doc.root, P s) ↔
      ∀ id ns around, Document.Scope doc id (ns :: around) → P ⟨id, ns⟩ := by
  constructor
  · exact fun h id ns around hscope => h ⟨id, ns⟩ (mem_sites_of_scope hscope)
  · intro h s hs
    obtain ⟨around, hscope⟩ := mem_sites_iff.mp hs
    exact h s.id s.content around hscope

theorem mem_known_iff {doc : Document} {s : Site} :
    s ∈ known doc ↔ s ∈ sites .root doc.root ∨ s = ⟨.library, Document.library⟩ := by
  unfold known
  rw [sites_eq, List.mem_cons, List.mem_cons, List.mem_cons]
  exact or_left_comm.trans or_comm

theorem Stands.mem_known {doc : Document} {id : NamespaceId} {ns : Document.Namespace}
    {around : List Document.Namespace} (h : Stands doc id (ns :: around)) :
    ⟨id, ns⟩ ∈ known doc := by
  rw [mem_known_iff]
  rcases h with h | ⟨rfl, heq⟩
  · exact .inl (mem_sites_of_scope h)
  · cases heq
    exact .inr rfl

/-! ## Steps down the tree -/

/-- The sites right below a place are those that names can lead to from there, and names can lead
on from them. -/
theorem Stands.sitesIn_known {doc : Document} {id : NamespaceId} {scope : List Document.Namespace}
    (h : Stands doc id scope) :
    ∃ position, sitesIn id (known doc) = childSites id position (Document.children scope) ∧
      ∀ s ∈ childSites id position (Document.children scope),
        Stands doc s.id (s.content :: scope) := by
  have hroot : ∀ (content : Document.Namespace) (rest : List Site),
      sitesIn id (⟨.root, content⟩ :: rest) = sitesIn id rest := fun content rest =>
    sitesIn_cons_of_suffix (List.nil_suffix ..)
  unfold known
  rw [hroot]
  rcases h with h | ⟨rfl, rfl⟩
  · cases h with
    | root =>
      refine ⟨0, ?_, ?_⟩
      · have hkeep : ∀ rest : List Site, sitesIn .root (⟨.library, Document.library⟩ :: rest) =
            ⟨.library, Document.library⟩ :: sitesIn .root rest := fun rest =>
          List.filter_cons_of_pos (beq_self_eq_true _)
        rw [hkeep, sitesIn_sitesBelow]
        rfl
      · rintro s (_ | ⟨_, hs⟩)
        · exact Or.inr ⟨rfl, rfl⟩
        · exact Or.inl (scope_of_mem_childSites Document.Scope.root hs)
    | @child id ns c around i h hc =>
      have hscope := h.child hc
      refine ⟨1, ?_, fun s hs => Or.inl (scope_of_mem_childSites hscope hs)⟩
      have hchildren := filter_parent_sites (mem_sites_of_scope hscope)
      rw [sites_eq, hroot] at hchildren
      have hlibrary : ∀ rest : List Site, sitesIn (id.child (i + 1) c.name)
          (⟨.library, Document.library⟩ :: rest) = sitesIn (id.child (i + 1) c.name) rest := by
        intro rest
        unfold sitesIn
        rw [List.filter_cons_of_neg]
        intro hparent
        cases Option.some.inj (beq_iff_eq.mp hparent)
      rw [hlibrary, hchildren]
      rfl
  · refine ⟨1, ?_, fun s hs => ?_⟩
    · rw [sitesIn_cons_of_suffix (List.suffix_refl _)]
      exact sitesIn_eq_nil fun s hs => not_library_suffix hs
    · cases hs

theorem find?_childSites (id : NamespaceId) (position : Nat) (rest : List Document.Namespace)
    (name : String) :
    ((childSites id position rest).find? (·.id.name == name)).map (·.content) =
      rest.find? (·.name == name) := by
  induction rest generalizing position with
  | nil => rfl
  | cons c rest ih =>
    have hname : (id.child position c.name).name = c.name := rfl
    unfold childSites
    rw [List.find?_cons, List.find?_cons, hname]
    cases c.name == name with
    | true => rfl
    | false => exact ih (position + 1)

theorem child?_eq (doc : Document) (id : NamespaceId) (name : String) :
    Scope.child? (table doc) id name =
      ((sitesIn id (known doc)).find? (·.id.name == name)).map (·.id) := by
  unfold Scope.child? table sitesIn
  rw [List.find?_map, List.find?_filter, Option.map_map]
  simp only [Bool.decide_and, Bool.decide_eq_true]
  rfl

/-- A step down the table is a step down the tree. -/
theorem Stands.child? {doc : Document} {id : NamespaceId} {scope : List Document.Namespace}
    (h : Stands doc id scope) (name : String) :
    match (Document.children scope).find? (·.name == name) with
    | none => Scope.child? (table doc) id name = none
    | some c => ∃ inner, Scope.child? (table doc) id name = some inner ∧
        Stands doc inner (c :: scope) := by
  obtain ⟨position, hsites, hstands⟩ := h.sitesIn_known
  rw [child?_eq, hsites, ← find?_childSites id position]
  cases hfind : (childSites id position (Document.children scope)).find? (·.id.name == name) with
  | none => rfl
  | some s => exact ⟨s.id, rfl, hstands s (List.mem_of_find?_eq_some hfind)⟩

/-! ## Looking names up -/

theorem Stands.exists_cons {doc : Document} {id : NamespaceId} {scope : List Document.Namespace}
    (h : Stands doc id scope) : ∃ ns around, scope = ns :: around := by
  rcases h with h | ⟨_, rfl⟩
  · cases h with
    | root => exact ⟨_, _, rfl⟩
    | child => exact ⟨_, _, rfl⟩
  · exact ⟨_, _, rfl⟩

theorem Stands.declared_nodup {doc : Document} (hd : doc.Distinct) {id : NamespaceId}
    {ns : Document.Namespace} {around : List Document.Namespace}
    (h : Stands doc id (ns :: around)) : (ns.declared.map (·.1)).Nodup := by
  rcases h with h | ⟨_, heq⟩
  · exact hd id ns around h
  · cases heq
    decide

/-- A place in the table holds what is declared in the namespace there. -/
theorem Stands.kindIn?_eq_some_iff {doc : Document} (hd : doc.Distinct) {id : NamespaceId}
    {ns : Document.Namespace} {around : List Document.Namespace}
    (h : Stands doc id (ns :: around)) {name : String} {kind : Kind} :
    Scope.kindIn? (table doc) id name = some kind ↔ (name, kind) ∈ ns.declared := by
  have hfind := Keyed.find?_key_eq_some (known_ids_nodup doc) h.mem_known
  have hkind : Scope.kindIn? (table doc) id name = ns.declared.lookup name := by
    unfold Scope.kindIn? table
    rw [List.find?_map]
    change (((known doc).find? (·.id == id)).map Site.declare).bind _ = _
    rw [hfind, Option.map_some, Option.bind_some, declared_declare]
  rw [hkind]
  exact Keyed.lookup_eq_some_iff_mem (h.declared_nodup hd)

/-- What a target is, apart from where it is declared. -/
def meaningOf : Target → Meaning
  | .declared _ kind => .declaration kind
  | .intrinsic i => .intrinsic i

/-- Following a path in the table is following it down the tree. -/
theorem Stands.lookupIn?_iff {doc : Document} (hd : doc.Distinct) {id : NamespaceId}
    {scope : List Document.Namespace} (h : Stands doc id scope) {path : List String}
    {meaning : Meaning} :
    (Scope.lookupIn? (table doc) id path).map meaningOf = some meaning ↔
      ∃ kind, meaning = .declaration kind ∧ Names scope path kind := by
  induction path generalizing id scope with
  | nil => simp [Scope.lookupIn?, Document.not_names_nil]
  | cons segment rest ih =>
    cases rest with
    | nil =>
      obtain ⟨ns, around, rfl⟩ := h.exists_cons
      simp only [Scope.lookupIn?, Option.map_map, Option.map_eq_some_iff,
        h.kindIn?_eq_some_iff hd, Document.names_singleton_iff]
      refine exists_congr fun kind => ?_
      rw [and_comm]
      exact and_congr_left fun _ => eq_comm
    | cons next rest =>
      have hstep := h.child? segment
      simp only [Document.names_cons_cons_iff]
      rw [Scope.lookupIn?]
      · cases hfind : (Document.children scope).find? (·.name == segment) with
        | none =>
          rw [hfind] at hstep
          rw [hstep]
          simp
        | some c =>
          rw [hfind] at hstep
          obtain ⟨inner, hinner, hstands⟩ := hstep
          rw [hinner, Option.bind_some, ih hstands]
          simp
      · exact nofun

/-! ## Outside all namespaces -/

/-- The names of the built-in scalars have one segment. -/
theorem split_builtIn : ∀ entry ∈ Document.library.declared,
    Text.split '.' entry.1 = [entry.1] := by
  decide

theorem names_library_iff {doc : Document} {name : String} {kind : Kind} :
    Names [Document.library, doc.root] (Text.split '.' name) kind ↔
      (name, kind) ∈ Document.library.declared := by
  constructor
  · intro h
    generalize hpath : Text.split '.' name = path at h
    cases h with
    | declared hmem =>
      rw [← Text.eq_of_split_eq_singleton hpath] at hmem
      exact hmem
    | through hc _ => cases hc
  · intro h
    rw [split_builtIn _ h]
    exact Names.declared h

theorem ofName?_eq_some_iff {name : String} {i : Intrinsic} :
    Intrinsic.ofName? name = some i ↔ name = i.name := by
  constructor
  · intro h
    unfold Intrinsic.ofName? at h
    grind [Intrinsic.name]
  · rintro rfl
    cases i <;> rfl

theorem intrinsic?_eq_some_iff {name : String} {t : Target} :
    Scope.intrinsic? name = some t ↔
      ∃ i : Intrinsic, i ≠ .error ∧ name = i.name ∧ t = .intrinsic i := by
  unfold Scope.intrinsic?
  simp only [Option.map_eq_some_iff, Option.filter_eq_some_iff, ofName?_eq_some_iff,
    decide_eq_true_eq]
  constructor
  · intro h
    obtain ⟨i, ⟨hname, hi⟩, rfl⟩ := h
    exact ⟨i, hi, hname, rfl⟩
  · intro h
    obtain ⟨i, hi, hname, rfl⟩ := h
    exact ⟨i, ⟨hname, hi⟩, rfl⟩

/-- What a name means where no namespace around declares it. -/
theorem means_nil_iff {doc : Document} (hd : doc.Distinct) {name : String} {meaning : Meaning} :
    (((Scope.intrinsic? name).or
      (Scope.lookupIn? (table doc) .library (Text.split '.' name))).map meaningOf = some meaning) ↔
        Means name [] meaning := by
  have hlibrary : Stands doc .library [Document.library, doc.root] := Or.inr ⟨rfl, rfl⟩
  cases hintrinsic : Scope.intrinsic? name with
  | some t =>
    obtain ⟨i, hi, hname, rfl⟩ := intrinsic?_eq_some_iff.mp hintrinsic
    rw [Option.some_or, Option.map_some, Option.some.injEq]
    constructor
    · rintro rfl
      exact Means.intrinsic hi hname
    · intro h
      cases h with
      | intrinsic hi' hname' =>
        have heq := intrinsic?_eq_some_iff.mpr ⟨_, hi', hname', rfl⟩
        rw [hintrinsic, Option.some.injEq] at heq
        rw [heq]
        rfl
      | builtIn hn _ => exact absurd hname (hn i hi)
  | none =>
    have hnone : ∀ i : Intrinsic, i ≠ .error → name ≠ i.name := by
      intro i hi hname
      rw [intrinsic?_eq_some_iff.mpr ⟨i, hi, hname, rfl⟩] at hintrinsic
      cases hintrinsic
    rw [Option.none_or, hlibrary.lookupIn?_iff hd]
    simp only [names_library_iff]
    constructor
    · intro h
      obtain ⟨kind, rfl, hmem⟩ := h
      exact Means.builtIn hnone hmem
    · intro h
      cases h with
      | intrinsic hi hname => exact absurd hname (hnone _ hi)
      | builtIn _ hmem => exact ⟨_, rfl, hmem⟩

/-! ## From the inside out -/

/-- The innermost namespace decides if the name leads to a declaration from there. -/
theorem means_cons_iff {doc : Document} (hd : doc.Distinct) {id : NamespaceId}
    {ns : Document.Namespace} {around : List Document.Namespace}
    (h : Stands doc id (ns :: around)) {name : String} {meaning : Meaning} {rest : Option Target}
    (hrest : rest.map meaningOf = some meaning ↔ Means name around meaning) :
    ((Scope.lookupIn? (table doc) id (Text.split '.' name)).or rest).map meaningOf =
      some meaning ↔ Means name (ns :: around) meaning := by
  have hlook : ∀ meaning, (Scope.lookupIn? (table doc) id (Text.split '.' name)).map meaningOf =
      some meaning ↔ ∃ kind, meaning = .declaration kind ∧
        Names (ns :: around) (Text.split '.' name) kind := fun _ => h.lookupIn?_iff hd
  cases hfound : Scope.lookupIn? (table doc) id (Text.split '.' name) with
  | some t =>
    rw [hfound] at hlook
    obtain ⟨kind, hkind, hnames⟩ := (hlook (meaningOf t)).mp rfl
    rw [Option.some_or, hlook]
    constructor
    · intro h
      obtain ⟨kind', rfl, hnames'⟩ := h
      exact Means.inside hnames'
    · intro hmeans
      cases hmeans with
      | inside hnames' => exact ⟨_, rfl, hnames'⟩
      | outside hn _ => exact absurd hnames (hn kind)
  | none =>
    have hnone : ∀ kind, ¬ Names (ns :: around) (Text.split '.' name) kind := by
      intro kind hnames
      have := (hlook (.declaration kind)).mpr ⟨kind, rfl, hnames⟩
      rw [hfound] at this
      cases this
    rw [Option.none_or, hrest]
    constructor
    · exact Means.outside hnone
    · intro hmeans
      cases hmeans with
      | inside hnames => exact absurd hnames (hnone _)
      | outside _ hmeans => exact hmeans

/-- **The table and the tree agree on what names mean**, at every place of a document in which no
name is declared twice in a namespace. -/
theorem lookup?_iff {doc : Document} (hd : doc.Distinct) {id : NamespaceId}
    {scope : List Document.Namespace} (h : Document.Scope doc id scope) {name : String}
    {meaning : Meaning} :
    (Scope.lookup? (table doc) id name).map meaningOf = some meaning ↔
      Means name scope meaning := by
  unfold Scope.lookup?
  dsimp only
  rw [Option.or_assoc]
  have hcons : ∀ (outer : List NamespaceId) (inner : NamespaceId),
      (inner :: outer).findSome? (Scope.lookupIn? (table doc) · (Text.split '.' name)) =
        (Scope.lookupIn? (table doc) inner (Text.split '.' name)).or
          (outer.findSome? (Scope.lookupIn? (table doc) · (Text.split '.' name))) := by
    intro outer inner
    rw [List.findSome?_cons]
    cases Scope.lookupIn? (table doc) inner (Text.split '.' name) <;> rfl
  induction h with
  | root =>
    have hroot : Stands doc .root [doc.root] := Or.inl Document.Scope.root
    have henclosing : NamespaceId.root.enclosing = [NamespaceId.root] := rfl
    rw [henclosing, hcons, List.findSome?_nil, Option.or_none]
    exact means_cons_iff hd hroot (means_nil_iff hd)
  | @child id ns c around i h hc ih =>
    have hchild : Stands doc (id.child (i + 1) c.name) (c :: ns :: around) := Or.inl (h.child hc)
    have henclosing : (id.child (i + 1) c.name).enclosing =
        id.child (i + 1) c.name :: id.enclosing := rfl
    rw [henclosing, hcons, Option.or_assoc]
    exact means_cons_iff hd hchild ih

end Load

end ApiEmit
