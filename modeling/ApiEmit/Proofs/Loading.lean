/-
ApiEmit.Proofs.Loading — a document is loaded exactly when all its names can be.

What can be wrong with a document is said of the document alone: `Writes` lists the type
expressions in it, `Extends` the bases, and `Violates` the errors that describe a fault. Loading
is then followed step by step; each step reports the faults of what it resolves, so the whole
reports the faults of the document, whichever declaration comes first.
-/
import ApiEmit.Proofs.Faults
import ApiEmit.Proofs.Parts
import ApiEmit.Proofs.Scoping
import Mathlib.Data.List.Duplicate

namespace ApiEmit

namespace Document

/-! ## What a document may do wrong -/

/-- An operation of a namespace or of an interface in it, with its name there. -/
inductive HasOperation (ns : Namespace) : String → Operation → Prop
  | own {op : Operation} (h : op ∈ ns.operations) : HasOperation ns op.name op
  | grouped {i : Interface} {op : Operation} (hi : i ∈ ns.interfaces) (h : op ∈ i.operations) :
      HasOperation ns (i.name ++ "." ++ op.name) op

/-- A type expression that is written in a namespace, with the name of what it is written in. -/
inductive Writes (ns : Namespace) : String → Expr → Prop
  | variant {u : Union} {v : Variant} (hu : u ∈ ns.unions) (h : v ∈ u.variants) :
      Writes ns u.name v.type
  | indexer {m : Model} {t : Expr} (hm : m ∈ ns.models) (h : m.indexer = some t) :
      Writes ns m.name t
  | property {m : Model} {p : Property} (hm : m ∈ ns.models) (h : p ∈ m.properties) :
      Writes ns (m.name ++ "." ++ p.name) p.type
  | parameter {name : String} {op : Operation} {p : Parameter} (ho : HasOperation ns name op)
      (h : p ∈ op.parameters) : Writes ns name p.type
  | request {name : String} {op : Operation} {b : Body} (ho : HasOperation ns name op)
      (h : op.body = some b) : Writes ns name b.type
  | response {name : String} {op : Operation} {r : Response} {b : Body}
      (ho : HasOperation ns name op) (hr : r ∈ op.responses) (h : b ∈ r.bodies) :
      Writes ns name b.type

/-- A declaration of a namespace that extends a base of its own kind. -/
inductive Extends (ns : Namespace) : Kind → String → String → Prop
  | scalar {s : Scalar} {base : String} (hs : s ∈ ns.scalars) (h : s.base = some base) :
      Extends ns .scalar s.name base
  | model {m : Model} {base : String} (hm : m ∈ ns.models) (h : m.base = some base) :
      Extends ns .model m.name base

/-- Every reference in a type expression has a meaning, at any depth, and everything marked as an
intrinsic is one. -/
def ReferencesResolve (doc : Document) : Prop :=
  ∀ id ns around, Scope doc id (ns :: around) → ∀ context e, Writes ns context e →
    (∀ name, e.Contains (.ref name) → Resolves (ns :: around) name) ∧
      ∀ name, e.Contains (.intrinsic name) → ∃ i : Intrinsic, name = i.name

/-- Every scalar extends a scalar, and every model a model. -/
def BasesResolve (doc : Document) : Prop :=
  ∀ id ns around, Scope doc id (ns :: around) → ∀ kind name base, Extends ns kind name base →
    Means base (ns :: around) (.declaration kind)

/-- An error describes a fault of a document: what it names is wrong in the place it names. -/
inductive Violates (doc : Document) : LoadError → Prop
  | duplicate {id : NamespaceId} {ns : Namespace} {around : List Namespace} {name : String}
      (hs : Scope doc id (ns :: around)) (h : List.Duplicate name (ns.declared.map (·.1))) :
      Violates doc (.duplicate (id.qualify name))
  | reference {id : NamespaceId} {ns : Namespace} {around : List Namespace} {context : String}
      {e : Expr} {name : String} (hs : Scope doc id (ns :: around)) (hw : Writes ns context e)
      (hr : e.Contains (.ref name)) (h : ¬ Resolves (ns :: around) name) :
      Violates doc (.unresolved name (id.qualify context))
  | intrinsic {id : NamespaceId} {ns : Namespace} {around : List Namespace} {context : String}
      {e : Expr} {name : String} (hs : Scope doc id (ns :: around)) (hw : Writes ns context e)
      (hr : e.Contains (.intrinsic name)) (h : ∀ i : Intrinsic, name ≠ i.name) :
      Violates doc (.unresolved name (id.qualify context))
  | base {id : NamespaceId} {ns : Namespace} {around : List Namespace} {kind : Kind}
      {context name : String} (hs : Scope doc id (ns :: around))
      (he : Extends ns kind context name) (h : ¬ Resolves (ns :: around) name) :
      Violates doc (.unresolved name (id.qualify context))
  | kind {id : NamespaceId} {ns : Namespace} {around : List Namespace} {kind : Kind}
      {context name : String} (hs : Scope doc id (ns :: around))
      (he : Extends ns kind context name) (hr : Resolves (ns :: around) name)
      (h : ¬ Means name (ns :: around) (.declaration kind)) :
      Violates doc (.wrongKind name (id.qualify context) kind)

end Document

namespace Load

open Document (Means Resolves)
open TypeExpr (contains_iff induction_parts)

/-! ## Names declared twice -/

/-- The name found is one that the list holds twice, or that was there before. -/
theorem firstRepeated?_eq_some {seen names : List String} {name : String}
    (h : firstRepeated? seen names = some name) :
    name ∈ names ∧ (name ∈ seen ∨ List.Duplicate name names) := by
  induction names generalizing seen with
  | nil => cases h
  | cons first rest ih =>
    rw [firstRepeated?] at h
    by_cases hseen : first ∈ seen
    · rw [if_pos (List.contains_iff_mem.mpr hseen), Option.some.injEq] at h
      subst h
      exact ⟨List.mem_cons_self, Or.inl hseen⟩
    · rw [if_neg (fun hc => hseen (List.contains_iff_mem.mp hc))] at h
      obtain ⟨hmem, hrepeated⟩ := ih h
      refine ⟨List.mem_cons_of_mem _ hmem, ?_⟩
      rcases hrepeated with hbefore | hdup
      · rcases List.mem_cons.mp hbefore with rfl | hbefore
        · exact Or.inr (List.duplicate_cons_self_iff.mpr hmem)
        · exact Or.inl hbefore
      · exact Or.inr (hdup.duplicate_cons first)

theorem firstRepeated?_eq_none_iff {seen names : List String} :
    firstRepeated? seen names = none ↔ names.Nodup ∧ ∀ name ∈ names, name ∉ seen := by
  induction names generalizing seen with
  | nil => simp [firstRepeated?]
  | cons first rest ih =>
    rw [firstRepeated?]
    by_cases hseen : first ∈ seen
    · rw [if_pos (List.contains_iff_mem.mpr hseen)]
      refine ⟨nofun, fun h => ?_⟩
      exact absurd hseen (h.2 first List.mem_cons_self)
    · rw [if_neg (fun hc => hseen (List.contains_iff_mem.mp hc)), ih, List.nodup_cons]
      refine ⟨fun h => ⟨⟨fun hmem => ?_, h.1⟩, fun name hname => ?_⟩,
        fun h => ⟨h.1.2, fun name hname => ?_⟩⟩
      · exact h.2 first hmem List.mem_cons_self
      · rcases List.mem_cons.mp hname with rfl | hrest
        · exact hseen
        · exact fun hbefore => h.2 name hrest (List.mem_cons_of_mem _ hbefore)
      · intro hbefore
        rcases List.mem_cons.mp hbefore with rfl | hbefore
        · exact h.1.1 hname
        · exact h.2 name (List.mem_cons_of_mem _ hname) hbefore

/-- The check of one namespace. -/
theorem reports_checkDistinct (s : Site) :
    Reports (checkDistinct s.declare) fun e =>
      ∃ name, List.Duplicate name (s.content.declared.map (·.1)) ∧
        e = .duplicate (s.id.qualify name) := by
  unfold checkDistinct
  rw [declared_declare]
  cases h : firstRepeated? [] (s.content.declared.map (·.1)) with
  | some name =>
    refine ⟨fun e he => ?_, fun _ _ => ⟨_, rfl⟩⟩
    cases he
    rcases (firstRepeated?_eq_some h).2 with hnil | hdup
    · cases hnil
    · exact ⟨name, hdup, rfl⟩
  | none =>
    refine ⟨nofun, fun e he => ?_⟩
    obtain ⟨name, hdup, _⟩ := he
    have hnodup := (firstRepeated?_eq_none_iff.mp h).1
    exact absurd hnodup (List.exists_duplicate_iff_not_nodup.mp ⟨name, hdup⟩)

/-! ## Resolving names -/

section Resolving

variable {doc : Document} {place : Place} {scope : List Document.Namespace}

/-- A place of a document: names are looked up in its table, from a scope of it. -/
structure PlacedIn (doc : Document) (scope : List Document.Namespace) (place : Place) : Prop where
  distinct : doc.Distinct
  namespaces : place.namespaces = table doc
  home : Document.Scope doc place.home scope

theorem PlacedIn.resolves_iff (hp : PlacedIn doc scope place) {name : String} :
    Resolves scope name ↔ Scope.lookup? place.namespaces place.home name ≠ none := by
  unfold Document.Resolves
  simp only [← lookup?_iff hp.distinct hp.home, hp.namespaces]
  cases Scope.lookup? (table doc) place.home name <;> simp

/-- A reference is at fault when it has no meaning. -/
theorem PlacedIn.reports_reference (hp : PlacedIn doc scope place) (name : String) :
    Reports (place.reference name) fun e =>
      ¬ Resolves scope name ∧ e = .unresolved name place.context := by
  unfold Place.reference
  rw [hp.resolves_iff]
  cases h : Scope.lookup? place.namespaces place.home name with
  | none => exact (Reports.error _).congr fun e => by simp
  | some t =>
    cases t with
    | declared | intrinsic => exact (Reports.ok _).congr fun e => by simp

theorem reports_intrinsic (place : Place) (name : String) :
    Reports (place.intrinsic name) fun e =>
      (∀ i : Intrinsic, name ≠ i.name) ∧ e = .unresolved name place.context := by
  unfold Place.intrinsic
  cases h : Intrinsic.ofName? name with
  | none =>
    have hnone : ∀ i : Intrinsic, name ≠ i.name := by
      intro i hname
      rw [ofName?_eq_some_iff.mpr hname] at h
      cases h
    exact (Reports.error _).congr fun e => by simp [hnone]
  | some i =>
    have hsome := ofName?_eq_some_iff.mp h
    refine (Reports.ok _).congr fun e => ⟨False.elim, fun he => ?_⟩
    exact absurd hsome (he.1 i)

/-- The faults of a base: it has no meaning, or means something else than a declaration of the
kind. -/
def BaseFault (scope : List Document.Namespace) (context : String) (kind : Kind) (name : String)
    (e : LoadError) : Prop :=
  (¬ Resolves scope name ∧ e = .unresolved name context) ∨
    (Resolves scope name ∧ ¬ Means name scope (.declaration kind) ∧
      e = .wrongKind name context kind)

theorem PlacedIn.reports_declarationOf (hp : PlacedIn doc scope place) (kind : Kind)
    (name : String) :
    Reports (place.declarationOf kind name) (BaseFault scope place.context kind name) := by
  have hmeans : (Scope.lookup? (table doc) place.home name).map meaningOf =
      some (.declaration kind) ↔ Means name scope (.declaration kind) :=
    lookup?_iff hp.distinct hp.home
  unfold Place.declarationOf BaseFault
  rw [hp.resolves_iff]
  rw [← hp.namespaces] at hmeans
  simp only [← hmeans]
  cases h : Scope.lookup? place.namespaces place.home name with
  | none => exact (Reports.error _).congr fun e => by simp
  | some t =>
    cases t with
    | intrinsic i => exact (Reports.error _).congr fun e => by simp [meaningOf]
    | declared id other =>
      by_cases hkind : other = kind
      · dsimp only
        rw [if_pos hkind]
        exact (Reports.ok _).congr fun e => by simp [meaningOf, hkind]
      · dsimp only
        rw [if_neg hkind]
        exact (Reports.error _).congr fun e => by simp [meaningOf, hkind]

/-! ## Resolving type expressions -/

/-- The faults of a type expression: references without a meaning and intrinsics that are none,
at any depth. -/
def TypeFault (scope : List Document.Namespace) (context : String) (t : Document.Expr)
    (e : LoadError) : Prop :=
  (∃ name, t.Contains (.ref name) ∧ ¬ Resolves scope name ∧ e = .unresolved name context) ∨
    ∃ name, t.Contains (.intrinsic name) ∧ (∀ i : Intrinsic, name ≠ i.name) ∧
      e = .unresolved name context

/-- An expression that is no reference and no intrinsic has the faults of its parts. -/
theorem typeFault_iff_parts {context : String} {e : LoadError} (t : Document.Expr)
    (href : ∀ name, t ≠ .ref name) (hintrinsic : ∀ name, t ≠ .intrinsic name) :
    TypeFault scope context t e ↔ ∃ part ∈ t.parts, TypeFault scope context part e := by
  have hcontains : ∀ leaf : Document.Expr, leaf ≠ t →
      (t.Contains leaf ↔ ∃ part ∈ t.parts, part.Contains leaf) := fun leaf hne => by
    rw [contains_iff]
    exact or_iff_right hne
  unfold TypeFault
  simp only [fun name => hcontains (.ref name) (href name).symm,
    fun name => hcontains (.intrinsic name) (hintrinsic name).symm]
  refine ⟨fun h => ?_, fun h => ?_⟩
  · rcases h with ⟨name, ⟨part, hpart, hin⟩, hfault⟩ | ⟨name, ⟨part, hpart, hin⟩, hfault⟩
    · exact ⟨part, hpart, Or.inl ⟨name, hin, hfault⟩⟩
    · exact ⟨part, hpart, Or.inr ⟨name, hin, hfault⟩⟩
  · obtain ⟨part, hpart, ⟨name, hin, hfault⟩ | ⟨name, hin, hfault⟩⟩ := h
    · exact Or.inl ⟨name, ⟨part, hpart, hin⟩, hfault⟩
    · exact Or.inr ⟨name, ⟨part, hpart, hin⟩, hfault⟩

theorem types_eq_mapM (place : Place) (ts : List Document.Expr) :
    place.types ts = ts.mapM place.type := by
  induction ts with
  | nil => rfl
  | cons t ts ih => rw [Place.types, List.mapM_cons, ih]

theorem inlineProperties_eq_mapM (place : Place) (ps : List (InlineProperty Document.Expr)) :
    place.inlineProperties ps = ps.mapM fun p => do
      return ⟨p.name, ← place.type p.type, p.optional, p.doc⟩ := by
  induction ps with
  | nil => rfl
  | cons p ps ih =>
    obtain ⟨name, type, optional, doc⟩ := p
    rw [Place.inlineProperties, List.mapM_cons, ih]
    simp only [bind_assoc, pure_bind]

/-- Resolving a type expression reports what is at fault in it. -/
theorem PlacedIn.reports_type (hp : PlacedIn doc scope place) (t : Document.Expr) :
    Reports (place.type t) (TypeFault scope place.context t) := by
  induction t using induction_parts with
  | step t ih =>
    cases t with
    | ref name =>
      rw [Place.type]
      exact (hp.reports_reference name).congr fun e => by simp [TypeFault]
    | intrinsic name =>
      rw [Place.type]
      exact (reports_intrinsic place name).congr fun e => by simp [TypeFault]
    | string | number | boolean =>
      rw [Place.type]
      refine (Reports.ok _).congr fun e => ?_
      rw [typeFault_iff_parts _ (by simp) (by simp)]
      simp [TypeExpr.parts]
    | array element =>
      have helement := ih element List.mem_cons_self
      rw [Place.type]
      refine (helement.bind_ok _).congr fun e => ?_
      rw [typeFault_iff_parts (.array element) (by simp) (by simp)]
      simp [TypeExpr.parts]
    | record value =>
      have hvalue := ih value List.mem_cons_self
      rw [Place.type]
      refine (hvalue.bind_ok _).congr fun e => ?_
      rw [typeFault_iff_parts (.record value) (by simp) (by simp)]
      simp [TypeExpr.parts]
    | union ts =>
      have hts := Reports.mapM ih
      rw [Place.type, types_eq_mapM]
      refine (hts.bind_ok _).congr fun e => ?_
      rw [typeFault_iff_parts (.union ts) (by simp) (by simp)]
    | model ps =>
      have hps := Reports.mapM fun p (hmem : p ∈ ps) =>
        (ih p.type (List.mem_map_of_mem hmem)).bind_ok fun type =>
          (⟨p.name, type, p.optional, p.doc⟩ : InlineProperty Ty)
      rw [Place.type, inlineProperties_eq_mapM]
      refine (hps.bind_ok _).congr fun e => ?_
      rw [typeFault_iff_parts (.model ps) (by simp) (by simp)]
      simp [TypeExpr.parts]

/-! ## Resolving declarations -/

theorem PlacedIn.reports_property (hp : PlacedIn doc scope place) (enums : Enums)
    (p : Document.Property) :
    Reports (property enums place p)
      (TypeFault scope (place.context ++ "." ++ p.name) p.type) := by
  have hplace : PlacedIn doc scope { place with context := place.context ++ "." ++ p.name } :=
    { distinct := hp.distinct, namespaces := hp.namespaces, home := hp.home }
  exact (hplace.reports_type p.type).bind_ok _

/-- The faults of a model: those of its base, of its further values and of its properties. -/
def ModelFault (scope : List Document.Namespace) (context : String) (m : Document.Model)
    (e : LoadError) : Prop :=
  (∃ base, m.base = some base ∧ BaseFault scope context .model base e) ∨
    (∃ t, m.indexer = some t ∧ TypeFault scope context t e) ∨
    ∃ p ∈ m.properties, TypeFault scope (context ++ "." ++ p.name) p.type e

theorem PlacedIn.reports_model (hp : PlacedIn doc scope place) (enums : Enums)
    (m : Document.Model) :
    Reports (model enums place m) (ModelFault scope place.context m) := by
  have hbase := Reports.resolveOptional (hp.reports_declarationOf .model) m.base
  have hindexer := Reports.resolveOptional hp.reports_type m.indexer
  have hproperties := Reports.mapM fun p (_ : p ∈ m.properties) => hp.reports_property enums p
  exact hbase.bind fun _ _ => hindexer.bind fun _ _ => hproperties.bind_ok _

/-- The faults of a scalar are those of its base. -/
def ScalarFault (scope : List Document.Namespace) (context : String) (s : Document.Scalar)
    (e : LoadError) : Prop :=
  ∃ base, s.base = some base ∧ BaseFault scope context .scalar base e

theorem PlacedIn.reports_scalar (hp : PlacedIn doc scope place) (s : Document.Scalar) :
    Reports (scalar place s) (ScalarFault scope place.context s) :=
  (Reports.resolveOptional (hp.reports_declarationOf .scalar) s.base).bind_ok _

/-- The faults of a union are those of its variants. -/
def UnionFault (scope : List Document.Namespace) (context : String) (u : Document.Union)
    (e : LoadError) : Prop :=
  ∃ v ∈ u.variants, TypeFault scope context v.type e

theorem PlacedIn.reports_union (hp : PlacedIn doc scope place) (u : Document.Union) :
    Reports (union place u) (UnionFault scope place.context u) := by
  have hvariants := Reports.mapM fun v (_ : v ∈ u.variants) =>
    (hp.reports_type v.type).bind_ok fun type => (⟨v.name, type⟩ : Variant)
  exact hvariants.bind_ok _

theorem PlacedIn.reports_body (hp : PlacedIn doc scope place) (b : Document.Body) :
    Reports (body place b) (TypeFault scope place.context b.type) :=
  (hp.reports_type b.type).bind_ok _

/-- The name of an operation within its namespace. -/
def operationName (interface : Option String) (op : Document.Operation) : String :=
  match interface with
  | some group => group ++ "." ++ op.name
  | none => op.name

/-- The faults of an operation: those of its parameters, of its body and of its responses. -/
def OperationFault (scope : List Document.Namespace) (context : String) (op : Document.Operation)
    (e : LoadError) : Prop :=
  (∃ p ∈ op.parameters, TypeFault scope context p.type e) ∨
    (∃ b, op.body = some b ∧ TypeFault scope context b.type e) ∨
    ∃ r ∈ op.responses, ∃ b ∈ r.bodies, TypeFault scope context b.type e

theorem reports_operation {home : NamespaceId} (hd : doc.Distinct)
    (hs : Document.Scope doc home scope) (interface : Option String) (op : Document.Operation) :
    Reports (operation (table doc) home interface op)
      (OperationFault scope (home.qualify (operationName interface op)) op) := by
  have hp : PlacedIn doc scope ⟨table doc, home, home.qualify (operationName interface op)⟩ :=
    { distinct := hd, namespaces := rfl, home := hs }
  have hparameters := Reports.mapM fun p (_ : p ∈ op.parameters) =>
    (hp.reports_type p.type).bind_ok fun type =>
      ({ name := p.name, location := p.location, type, optional := p.optional, doc := p.doc
         : Parameter })
  have hbody := Reports.resolveOptional hp.reports_body op.body
  have hresponses := Reports.mapM fun r (_ : r ∈ op.responses) =>
    (Reports.mapM fun b (_ : b ∈ r.bodies) => hp.reports_body b).bind_ok fun bodies =>
      ({ status := r.status, description := r.description, bodies : Response })
  exact hparameters.bind fun _ _ => hbody.bind fun _ _ => hresponses.bind_ok _

end Resolving

/-! ## Resolving all declarations -/

section Entries

variable {doc : Document}

theorem mem_entries_iff {α : Type} {list : Document.Namespace → List α} {name : α → String}
    {entry : DeclId × α} :
    entry ∈ entries list name (sites .root doc.root) ↔
      ∃ scope : Document.Namespace × List Document.Namespace,
        Document.Scope doc entry.1.home (scope.1 :: scope.2) ∧ entry.2 ∈ list scope.1 ∧
          entry.1.name = name entry.2 := by
  unfold entries
  rw [List.mem_flatMap]
  refine ⟨fun h => ?_, fun h => ?_⟩
  · obtain ⟨s, hs, hentry⟩ := h
    obtain ⟨a, ha, rfl⟩ := List.mem_map.mp hentry
    obtain ⟨around, hscope⟩ := mem_sites_iff.mp hs
    exact ⟨(s.content, around), hscope, ha, rfl⟩
  · obtain ⟨⟨ns, around⟩, hscope, ha, hname⟩ := h
    obtain ⟨⟨home, name'⟩, a⟩ := entry
    refine ⟨⟨home, ns⟩, mem_sites_of_scope hscope, List.mem_map.mpr ⟨a, ha, ?_⟩⟩
    rw [← hname]

/-- The faults of the declarations of one kind are those of each of them at its place. -/
theorem reports_resolveAll {α : Type} {resolve : Place → α → Except LoadError Declaration}
    {faults : List Document.Namespace → String → α → LoadError → Prop} (hd : doc.Distinct)
    (h : ∀ {place scope}, PlacedIn doc scope place → ∀ a,
      Reports (resolve place a) (faults scope place.context a))
    (list : Document.Namespace → List α) (name : α → String) :
    Reports (resolveAll (table doc) resolve (entries list name (sites .root doc.root))) fun e =>
      ∃ id ns around, Document.Scope doc id (ns :: around) ∧
        ∃ a ∈ list ns, faults (ns :: around) (id.qualify (name a)) a e := by
  have hentry : ∀ entry ∈ entries list name (sites .root doc.root),
      Reports (resolve ⟨table doc, entry.1.home, entry.1.qualifiedName⟩ entry.2) _ :=
    fun entry hentry => Reports.any (mem_entries_iff.mp hentry) fun scope hscope =>
      h { distinct := hd, namespaces := rfl, home := hscope.1 } entry.2
  have hall := Reports.mapM fun entry hmem =>
    (hentry entry hmem).bind_ok fun declaration => (entry.1, declaration)
  refine hall.congr fun e => ⟨fun hfault => ?_, fun hfault => ?_⟩
  · obtain ⟨⟨id, a⟩, _, ⟨ns, around⟩, ⟨hscope, ha, hname⟩, hfault⟩ := hfault
    refine ⟨id.home, ns, around, hscope, a, ha, ?_⟩
    rw [← hname]
    exact hfault
  · obtain ⟨id, ns, around, hscope, a, ha, hfault⟩ := hfault
    exact ⟨(⟨id, name a⟩, a), mem_entries_iff.mpr ⟨(ns, around), hscope, ha, rfl⟩, (ns, around),
      ⟨hscope, ha, rfl⟩, hfault⟩

theorem home_of_mem_operations {s : Site}
    {entry : NamespaceId × Option String × Document.Operation} (h : entry ∈ s.operations) :
    entry.1 = s.id := by
  rcases List.mem_append.mp h with h | h
  · obtain ⟨_, _, rfl⟩ := List.mem_map.mp h
    rfl
  · obtain ⟨_, _, h⟩ := List.mem_flatMap.mp h
    obtain ⟨_, _, rfl⟩ := List.mem_map.mp h
    rfl

/-- What the document holds as an operation is what loading resolves as one. -/
theorem mem_operations_iff {home : NamespaceId} {interface : Option String}
    {op : Document.Operation} :
    (home, interface, op) ∈ (sites .root doc.root).flatMap (·.operations) ↔
      ∃ scope : Document.Namespace × List Document.Namespace,
        Document.Scope doc home (scope.1 :: scope.2) ∧
          (home, interface, op) ∈ Site.operations ⟨home, scope.1⟩ := by
  rw [List.mem_flatMap]
  refine ⟨fun h => ?_, fun h => ?_⟩
  · obtain ⟨s, hs, hop⟩ := h
    obtain rfl : home = s.id := home_of_mem_operations hop
    obtain ⟨around, hscope⟩ := mem_sites_iff.mp hs
    exact ⟨(s.content, around), hscope, hop⟩
  · obtain ⟨⟨ns, around⟩, hscope, hop⟩ := h
    exact ⟨⟨home, ns⟩, mem_sites_of_scope hscope, hop⟩

theorem hasOperation_iff {ns : Document.Namespace} {id : NamespaceId} {name : String}
    {op : Document.Operation} :
    Document.HasOperation ns name op ↔ ∃ interface, name = operationName interface op ∧
      (id, interface, op) ∈ Site.operations ⟨id, ns⟩ := by
  unfold Site.operations
  refine ⟨fun h => ?_, fun h => ?_⟩
  · cases h with
    | own h => exact ⟨none, rfl, List.mem_append_left _ (List.mem_map_of_mem h)⟩
    | @grouped i op hi h =>
      refine ⟨some i.name, rfl, List.mem_append_right _ (List.mem_flatMap.mpr ⟨i, hi, ?_⟩)⟩
      exact List.mem_map_of_mem h
  · obtain ⟨interface, rfl, h⟩ := h
    rcases List.mem_append.mp h with hown | hgrouped
    · obtain ⟨op, hop, heq⟩ := List.mem_map.mp hown
      cases heq
      exact .own hop
    · obtain ⟨i, hi, hin⟩ := List.mem_flatMap.mp hgrouped
      obtain ⟨op, hop, heq⟩ := List.mem_map.mp hin
      cases heq
      exact .grouped hi hop

/-- The faults of all operations are those of each of them at its place. -/
theorem reports_operations (hd : doc.Distinct) :
    Reports (((sites .root doc.root).flatMap (·.operations)).mapM fun (home, interface, op) =>
      operation (table doc) home interface op) fun e =>
        ∃ id ns around, Document.Scope doc id (ns :: around) ∧
          ∃ name op, Document.HasOperation ns name op ∧
            OperationFault (ns :: around) (id.qualify name) op e := by
  have hall := Reports.mapM fun entry
      (hmem : entry ∈ (sites .root doc.root).flatMap (·.operations)) =>
    Reports.any (mem_operations_iff.mp hmem) fun _ hscope =>
      reports_operation hd hscope.1 entry.2.1 entry.2.2
  refine hall.congr fun e => ⟨fun hfault => ?_, fun hfault => ?_⟩
  · obtain ⟨⟨id, interface, op⟩, _, ⟨ns, around⟩, ⟨hscope, hop⟩, hfault⟩ := hfault
    exact ⟨id, ns, around, hscope, _, op, hasOperation_iff.mpr ⟨interface, rfl, hop⟩, hfault⟩
  · obtain ⟨id, ns, around, hscope, name, op, hop, hfault⟩ := hfault
    obtain ⟨interface, rfl, hop⟩ := hasOperation_iff.mp hop
    exact ⟨(id, interface, op), mem_operations_iff.mpr ⟨(ns, around), hscope, hop⟩, (ns, around),
      ⟨hscope, hop⟩, hfault⟩

end Entries

/-! ## Loading -/

theorem qualify_append (id : NamespaceId) (name rest : String) :
    id.qualify name ++ rest = id.qualify (name ++ rest) := by
  unfold NamespaceId.qualify
  split
  · rfl
  · rw [String.append_assoc]

/-- The faults that are found after all names are known. -/
def ResolveFault (doc : Document) (e : LoadError) : Prop :=
  ∃ id ns around, Document.Scope doc id (ns :: around) ∧
    ((∃ context t, Document.Writes ns context t ∧
        TypeFault (ns :: around) (id.qualify context) t e) ∨
      ∃ kind context name, Document.Extends ns kind context name ∧
        BaseFault (ns :: around) (id.qualify context) kind name e)

/-- They are the faults of the declarations of each kind and of the operations. -/
theorem resolveFault_iff {doc : Document} {e : LoadError} :
    ResolveFault doc e ↔
      (∃ id ns around, Document.Scope doc id (ns :: around) ∧
        ∃ s ∈ ns.scalars, ScalarFault (ns :: around) (id.qualify s.name) s e) ∨
      (∃ id ns around, Document.Scope doc id (ns :: around) ∧
        ∃ u ∈ ns.unions, UnionFault (ns :: around) (id.qualify u.name) u e) ∨
      (∃ id ns around, Document.Scope doc id (ns :: around) ∧
        ∃ m ∈ ns.models, ModelFault (ns :: around) (id.qualify m.name) m e) ∨
      ∃ id ns around, Document.Scope doc id (ns :: around) ∧
        ∃ name op, Document.HasOperation ns name op ∧
          OperationFault (ns :: around) (id.qualify name) op e := by
  unfold ModelFault
  simp only [qualify_append]
  refine ⟨fun h => ?_, fun h => ?_⟩
  · obtain ⟨id, ns, around, hs, ⟨_, _, hw, ht⟩ | ⟨_, _, _, he, hb⟩⟩ := h
    · cases hw with
      | variant hu h => exact .inr (.inl ⟨id, ns, around, hs, _, hu, _, h, ht⟩)
      | indexer hm h =>
        exact .inr (.inr (.inl ⟨id, ns, around, hs, _, hm, .inr (.inl ⟨_, h, ht⟩)⟩))
      | property hm h =>
        exact .inr (.inr (.inl ⟨id, ns, around, hs, _, hm, .inr (.inr ⟨_, h, ht⟩)⟩))
      | parameter ho h =>
        exact .inr (.inr (.inr ⟨id, ns, around, hs, _, _, ho, .inl ⟨_, h, ht⟩⟩))
      | request ho h =>
        exact .inr (.inr (.inr ⟨id, ns, around, hs, _, _, ho, .inr (.inl ⟨_, h, ht⟩)⟩))
      | response ho hr h =>
        exact .inr (.inr (.inr ⟨id, ns, around, hs, _, _, ho, .inr (.inr ⟨_, hr, _, h, ht⟩)⟩))
    · cases he with
      | scalar hscalar h => exact .inl ⟨id, ns, around, hs, _, hscalar, _, h, hb⟩
      | model hm h => exact .inr (.inr (.inl ⟨id, ns, around, hs, _, hm, .inl ⟨_, h, hb⟩⟩))
  · obtain ⟨id, ns, around, hs, s, hscalar, base, h, hb⟩ | ⟨id, ns, around, hs, u, hu, v, h, ht⟩ |
      ⟨id, ns, around, hs, m, hm, ⟨base, h, hb⟩ | ⟨t, h, ht⟩ | ⟨p, h, ht⟩⟩ |
      ⟨id, ns, around, hs, name, op, ho, ⟨p, h, ht⟩ | ⟨b, h, ht⟩ | ⟨r, hr, b, h, ht⟩⟩ := h
    · exact ⟨id, ns, around, hs, .inr ⟨_, _, _, .scalar hscalar h, hb⟩⟩
    · exact ⟨id, ns, around, hs, .inl ⟨_, _, .variant hu h, ht⟩⟩
    · exact ⟨id, ns, around, hs, .inr ⟨_, _, _, .model hm h, hb⟩⟩
    · exact ⟨id, ns, around, hs, .inl ⟨_, _, .indexer hm h, ht⟩⟩
    · exact ⟨id, ns, around, hs, .inl ⟨_, _, .property hm h, ht⟩⟩
    · exact ⟨id, ns, around, hs, .inl ⟨_, _, .parameter ho h, ht⟩⟩
    · exact ⟨id, ns, around, hs, .inl ⟨_, _, .request ho h, ht⟩⟩
    · exact ⟨id, ns, around, hs, .inl ⟨_, _, .response ho hr h, ht⟩⟩

/-- The faults that are found before. -/
def DuplicateFault (doc : Document) (e : LoadError) : Prop :=
  ∃ id ns around name, Document.Scope doc id (ns :: around) ∧
    List.Duplicate name (ns.declared.map (·.1)) ∧ e = .duplicate (id.qualify name)

theorem reports_checks (doc : Document) :
    Reports ((sites .root doc.root).forM fun s => checkDistinct s.declare)
      (DuplicateFault doc) := by
  have hall := Reports.forM fun s (_ : s ∈ sites .root doc.root) => reports_checkDistinct s
  refine hall.congr fun e => ⟨fun h => ?_, fun h => ?_⟩
  · obtain ⟨s, hs, name, hdup, he⟩ := h
    obtain ⟨around, hscope⟩ := mem_sites_iff.mp hs
    exact ⟨s.id, s.content, around, name, hscope, hdup, he⟩
  · obtain ⟨id, ns, around, name, hscope, hdup, he⟩ := h
    exact ⟨⟨id, ns⟩, mem_sites_of_scope hscope, name, hdup, he⟩

theorem distinct_iff {doc : Document} : doc.Distinct ↔ ∀ e, ¬ DuplicateFault doc e := by
  refine ⟨fun hd e h => ?_, fun h id ns around hs => ?_⟩
  · obtain ⟨id, ns, around, name, hs, hdup, _⟩ := h
    exact List.exists_duplicate_iff_not_nodup.mp ⟨name, hdup⟩ (hd id ns around hs)
  · by_contra hnot
    obtain ⟨name, hdup⟩ := List.exists_duplicate_iff_not_nodup.mpr hnot
    exact h _ ⟨id, ns, around, name, hs, hdup, rfl⟩

/-- Loading reports both. The second are looked for only where there are none of the first, so
names mean there what the document says. -/
theorem reports_ofDocument (doc : Document) :
    Reports (Graph.ofDocument doc) fun e => DuplicateFault doc e ∨ ResolveFault doc e := by
  unfold Graph.ofDocument
  dsimp only
  rw [← table_eq, ← sites_eq .root doc.root]
  refine (reports_checks doc).bind fun _ hchecked => ?_
  have hd : doc.Distinct := distinct_iff.mpr ((reports_checks doc).exists_ok_iff.mp ⟨_, hchecked⟩)
  have hscalars := reports_resolveAll hd PlacedIn.reports_scalar (·.scalars) (·.name)
  have hunions := reports_resolveAll hd PlacedIn.reports_union (·.unions) (·.name)
  have hmodels := fun enums => reports_resolveAll hd
    (fun hp => PlacedIn.reports_model hp enums) (·.models) (·.name)
  refine Reports.congr ?_ fun e => resolveFault_iff.symm
  exact hscalars.bind fun _ _ => hunions.bind fun _ _ => (hmodels _).bind fun _ _ =>
    (reports_operations hd).bind_ok _

/-- A name that is declared twice is reported before all other faults. -/
theorem duplicateFault_of_error {doc : Document} {e : LoadError}
    (he : Graph.ofDocument doc = .error e) (hd : ¬ doc.Distinct) : DuplicateFault doc e := by
  have hchecks := reports_checks doc
  rw [distinct_iff, ← hchecks.exists_ok_iff] at hd
  cases hchecked : (sites .root doc.root).forM fun s => checkDistinct s.declare with
  | ok a => exact absurd ⟨a, hchecked⟩ hd
  | error e' =>
    unfold Graph.ofDocument at he
    dsimp only at he
    rw [← sites_eq .root doc.root, hchecked] at he
    cases he
    exact hchecks.sound e hchecked

end Load

namespace Document

open Load

/-- The errors that describe a fault are the faults that loading reports. -/
theorem violates_iff {doc : Document} {e : LoadError} :
    doc.Violates e ↔ DuplicateFault doc e ∨ ResolveFault doc e := by
  refine ⟨fun h => ?_, fun h => ?_⟩
  · cases h with
    | duplicate hs h => exact .inl ⟨_, _, _, _, hs, h, rfl⟩
    | reference hs hw hr h =>
      exact .inr ⟨_, _, _, hs, .inl ⟨_, _, hw, .inl ⟨_, hr, h, rfl⟩⟩⟩
    | intrinsic hs hw hr h =>
      exact .inr ⟨_, _, _, hs, .inl ⟨_, _, hw, .inr ⟨_, hr, h, rfl⟩⟩⟩
    | base hs he h => exact .inr ⟨_, _, _, hs, .inr ⟨_, _, _, he, .inl ⟨h, rfl⟩⟩⟩
    | kind hs he hr h => exact .inr ⟨_, _, _, hs, .inr ⟨_, _, _, he, .inr ⟨hr, h, rfl⟩⟩⟩
  · obtain ⟨id, ns, around, name, hs, hdup, rfl⟩ | ⟨id, ns, around, hs, hfault⟩ := h
    · exact .duplicate hs hdup
    · obtain ⟨context, t, hw, ⟨name, hr, h, rfl⟩ | ⟨name, hr, h, rfl⟩⟩ |
        ⟨kind, context, name, he, ⟨h, rfl⟩ | ⟨hr, h, rfl⟩⟩ := hfault
      · exact .reference hs hw hr h
      · exact .intrinsic hs hw hr h
      · exact .base hs he h
      · exact .kind hs he hr h

/-- A document without faults is one whose names can all be resolved. -/
theorem not_violates_iff {doc : Document} :
    (∀ e, ¬ doc.Violates e) ↔ doc.Distinct ∧ doc.ReferencesResolve ∧ doc.BasesResolve := by
  refine ⟨fun h => ⟨?_, ?_, ?_⟩, fun h e hv => ?_⟩
  · exact distinct_iff.mpr fun e he => h e (violates_iff.mpr (.inl he))
  · intro id ns around hs context e hw
    refine ⟨fun name hr => ?_, fun name hr => ?_⟩
    · by_contra hnot
      exact h _ (.reference hs hw hr hnot)
    · by_contra hnot
      exact h _ (.intrinsic hs hw hr (not_exists.mp hnot))
  · intro id ns around hs kind name base he
    by_contra hnot
    by_cases hr : Resolves (ns :: around) base
    · exact h _ (.kind hs he hr hnot)
    · exact h _ (.base hs he hr)
  · obtain ⟨hd, href, hbase⟩ := h
    cases hv with
    | duplicate hs h => exact List.exists_duplicate_iff_not_nodup.mp ⟨_, h⟩ (hd _ _ _ hs)
    | reference hs hw hr h => exact h ((href _ _ _ hs _ _ hw).1 _ hr)
    | intrinsic hs hw hr h =>
      obtain ⟨i, hi⟩ := (href _ _ _ hs _ _ hw).2 _ hr
      exact h i hi
    | base hs he h => exact h ⟨_, hbase _ _ _ hs _ _ _ he⟩
    | kind hs he _ h => exact h (hbase _ _ _ hs _ _ _ he)

end Document

/-- **Loading accepts exactly the documents whose names can all be resolved.** A document that is
refused has the fault that the error describes, and the error is that a name is declared twice
exactly when one is. -/
theorem Graph.ofDocument_exact (doc : Document) :
    ((∃ g, Graph.ofDocument doc = .ok g) ↔
      doc.Distinct ∧ doc.ReferencesResolve ∧ doc.BasesResolve) ∧
    ∀ e, Graph.ofDocument doc = .error e →
      doc.Violates e ∧ ((∃ name, e = .duplicate name) ↔ ¬ doc.Distinct) := by
  have hreports : Reports (Graph.ofDocument doc) doc.Violates :=
    (Load.reports_ofDocument doc).congr fun e => Document.violates_iff.symm
  refine ⟨hreports.exists_ok_iff.trans Document.not_violates_iff, fun e he => ?_⟩
  have hviolates := hreports.sound e he
  refine ⟨hviolates, fun h => ?_, fun hd => ?_⟩
  · obtain ⟨name, rfl⟩ := h
    intro hd
    cases hviolates with
    | duplicate hs hdup =>
      exact List.exists_duplicate_iff_not_nodup.mp ⟨_, hdup⟩ (hd _ _ _ hs)
  · obtain ⟨id, ns, around, name, _, _, heq⟩ := Load.duplicateFault_of_error he hd
    exact ⟨_, heq⟩

end ApiEmit
