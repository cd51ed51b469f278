/-
ApiEmit.Proofs.Resolved — what is written, and what it is resolved to.

Each resolving function has one equation that says when it gives a result, and what the result
is made of. What is resolved refers to nothing but names that are declared in the namespaces it
is resolved among (`listed_of_type`, `listed_of_declarationOf`).
-/
import ApiEmit.Proofs.Loading

namespace ApiEmit

/-! ## Results of a step done for each entry -/

section

variable {ε α β : Type} {f : α → Except ε β}

theorem mapM_cons_eq_ok_iff {first : α} {rest : List α} {results : List β} :
    (first :: rest).mapM f = .ok results ↔
      ∃ b bs, f first = .ok b ∧ rest.mapM f = .ok bs ∧ results = b :: bs := by
  rw [List.mapM_cons, bind_eq_ok_iff]
  simp only [bind_eq_ok_iff]
  constructor
  · rintro ⟨b, hb, bs, hbs, heq⟩
    cases heq
    exact ⟨b, bs, hb, hbs, rfl⟩
  · rintro ⟨b, bs, hb, hbs, rfl⟩
    exact ⟨b, hb, bs, hbs, rfl⟩

/-- A list that is resolved entry by entry has the result of each entry. -/
theorem mem_mapM_iff {entries : List α} {results : List β} (h : entries.mapM f = .ok results)
    {b : β} : b ∈ results ↔ ∃ a ∈ entries, f a = .ok b := by
  induction entries generalizing results with
  | nil =>
    cases h
    simp
  | cons first rest ih =>
    obtain ⟨value, values, hfirst, hrest, rfl⟩ := mapM_cons_eq_ok_iff.mp h
    simp [ih hrest, hfirst, eq_comm]

/-- Every entry has a result. -/
theorem exists_of_mapM {entries : List α} {results : List β} (h : entries.mapM f = .ok results)
    {a : α} (ha : a ∈ entries) : ∃ b, f a = .ok b := by
  have hreports : Reports (entries.mapM f) fun e => ∃ a ∈ entries, f a = .error e :=
    Reports.mapM fun a _ => ⟨fun _ he => he, fun e he => ⟨e, he⟩⟩
  cases hfa : f a with
  | ok b => exact ⟨b, rfl⟩
  | error e => exact absurd ⟨a, ha, hfa⟩ (hreports.exists_ok_iff.mp ⟨results, h⟩ e)

/-- The results stand in the order of the entries. -/
theorem map_eq_of_mapM {κ : Type} {key : β → κ} {key' : α → κ}
    (hkey : ∀ {a b}, f a = .ok b → key b = key' a) {entries : List α} {results : List β}
    (h : entries.mapM f = .ok results) : results.map key = entries.map key' := by
  induction entries generalizing results with
  | nil =>
    cases h
    rfl
  | cons first rest ih =>
    obtain ⟨value, values, hfirst, hrest, rfl⟩ := mapM_cons_eq_ok_iff.mp h
    rw [List.map_cons, List.map_cons, hkey hfirst, ih hrest]

/-- Each entry has its result, in order. -/
theorem forall₂_of_mapM {entries : List α} {results : List β} (h : entries.mapM f = .ok results) :
    List.Forall₂ (fun a b => f a = .ok b) entries results := by
  induction entries generalizing results with
  | nil =>
    cases h
    exact .nil
  | cons first rest ih =>
    obtain ⟨value, values, hfirst, hrest, rfl⟩ := mapM_cons_eq_ok_iff.mp h
    exact .cons hfirst (ih hrest)

end

namespace Load

variable {place : Place} {id : DeclId}

/-! ## Names -/

theorem listed_of_lookupIn? {namespaces : List Namespace} {start : NamespaceId}
    {path : List String} {kind : Kind}
    (h : Scope.lookupIn? namespaces start path = some (.declared id kind)) :
    ∃ ns ∈ namespaces, ns.id = id.home ∧ (id.name, kind) ∈ ns.declared := by
  fun_induction Scope.lookupIn? namespaces start path with
  | case1 => cases h
  | case2 start name =>
    obtain ⟨kind', hkind, heq⟩ := Option.map_eq_some_iff.mp h
    cases heq
    obtain ⟨ns, hfind, hlookup⟩ := Option.bind_eq_some_iff.mp hkind
    have hid := List.find?_some hfind
    rw [beq_iff_eq] at hid
    exact ⟨ns, List.mem_of_find?_eq_some hfind, hid, Keyed.mem_of_lookup hlookup⟩
  | case3 start segment rest _ ih =>
    obtain ⟨inner, _, hinner⟩ := Option.bind_eq_some_iff.mp h
    exact ih inner hinner

/-- A name means a declaration only if there is one. -/
theorem listed_of_lookup? {namespaces : List Namespace} {scope : NamespaceId} {name : String}
    {kind : Kind} (h : Scope.lookup? namespaces scope name = some (.declared id kind)) :
    ∃ ns ∈ namespaces, ns.id = id.home ∧ (id.name, kind) ∈ ns.declared := by
  unfold Scope.lookup? at h
  dsimp only at h
  rw [Option.or_eq_some_iff, Option.or_eq_some_iff] at h
  rcases h with (haround | ⟨_, hintrinsic⟩) | ⟨_, hbuiltIn⟩
  · obtain ⟨start, _, hstart⟩ := List.exists_of_findSome?_eq_some haround
    exact listed_of_lookupIn? hstart
  · obtain ⟨i, _, _, heq⟩ := intrinsic?_eq_some_iff.mp hintrinsic
    cases heq
  · exact listed_of_lookupIn? hbuiltIn

/-- A base is found as a declaration of its kind. -/
theorem listed_of_declarationOf {kind : Kind} {name : String}
    (h : place.declarationOf kind name = .ok id) :
    ∃ ns ∈ place.namespaces, ns.id = id.home ∧ (id.name, kind) ∈ ns.declared := by
  unfold Place.declarationOf at h
  cases hlookup : Scope.lookup? place.namespaces place.home name with
  | none =>
    rw [hlookup] at h
    cases h
  | some t =>
    rw [hlookup] at h
    cases t with
    | intrinsic => cases h
    | declared id kind' =>
      dsimp only at h
      split at h
      · rename_i hkind
        cases h
        rw [hkind] at hlookup
        exact listed_of_lookup? hlookup
      · cases h

/-! ## Type expressions -/

/-- A type is a reference where one is written, to what the name means there. -/
theorem lookup?_of_type_eq_ref {e : Document.Expr} (h : place.type e = .ok (.ref id)) :
    ∃ name kind, Scope.lookup? place.namespaces place.home name = some (.declared id kind) := by
  cases e with
  | ref name =>
    rw [Place.type, Place.reference] at h
    split at h
    · rename_i kind hlookup
      cases h
      exact ⟨name, kind, hlookup⟩
    all_goals cases h
  | intrinsic name =>
    rw [Place.type, Place.intrinsic] at h
    split at h <;> cases h
  | string | number | boolean => cases h
  | array | record | union | model =>
    rw [Place.type, bind_eq_ok_iff] at h
    obtain ⟨_, _, heq⟩ := h
    cases heq

/-- The parts of a type are resolved from the parts of what is written. -/
theorem exists_part_of_type {e : Document.Expr} {t part : Ty} (h : place.type e = .ok t)
    (hpart : part ∈ t.parts) : ∃ written ∈ e.parts, place.type written = .ok part := by
  cases e with
  | ref name =>
    rw [Place.type, Place.reference] at h
    split at h <;> cases h <;> cases hpart
  | intrinsic name =>
    rw [Place.type, Place.intrinsic] at h
    split at h <;> cases h
    cases hpart
  | string | number | boolean =>
    cases h
    cases hpart
  | array e | record e =>
    rw [Place.type, bind_eq_ok_iff] at h
    obtain ⟨inner, hinner, heq⟩ := h
    cases heq
    cases List.mem_singleton.mp hpart
    exact ⟨e, List.mem_singleton_self e, hinner⟩
  | union es =>
    rw [Place.type, bind_eq_ok_iff, types_eq_mapM] at h
    obtain ⟨ts, hts, heq⟩ := h
    cases heq
    exact (mem_mapM_iff hts).mp hpart
  | model ps =>
    rw [Place.type, bind_eq_ok_iff, inlineProperties_eq_mapM] at h
    obtain ⟨qs, hqs, heq⟩ := h
    cases heq
    obtain ⟨q, hq, rfl⟩ := List.mem_map.mp hpart
    obtain ⟨p, hp, hresolved⟩ := (mem_mapM_iff hqs).mp (Keyed.mem_of_mem_ofList hq)
    obtain ⟨t, ht, heq⟩ := bind_eq_ok_iff.mp hresolved
    cases heq
    exact ⟨p.type, List.mem_map_of_mem hp, ht⟩

/-- What stands in a type, at any depth, stands for a part of what is written. -/
theorem exists_type_of_contains {e : Document.Expr} {t inner : Ty} (h : place.type e = .ok t)
    (hinner : t.Contains inner) : ∃ written, place.type written = .ok inner := by
  induction hinner using Relation.ReflTransGen.head_induction_on generalizing e with
  | refl => exact ⟨e, h⟩
  | head hpart _ ih =>
    obtain ⟨_, _, hwritten⟩ := exists_part_of_type h hpart
    exact ih hwritten

/-- Every reference in a type is to a declaration, at any depth. -/
theorem listed_of_type {e : Document.Expr} {t : Ty} (h : place.type e = .ok t)
    (hr : t.Contains (.ref id)) :
    ∃ kind, ∃ ns ∈ place.namespaces, ns.id = id.home ∧ (id.name, kind) ∈ ns.declared := by
  obtain ⟨_, hwritten⟩ := exists_type_of_contains h hr
  obtain ⟨_, kind, hlookup⟩ := lookup?_of_type_eq_ref hwritten
  exact ⟨kind, listed_of_lookup? hlookup⟩

/-- Of several properties with one name an inline model keeps one. -/
theorem names_nodup_of_type {e : Document.Expr} {ps : List (InlineProperty Ty)}
    (h : place.type e = .ok (.model ps)) : (ps.map (·.name)).Nodup := by
  cases e with
  | ref name =>
    rw [Place.type, Place.reference] at h
    split at h <;> cases h
  | intrinsic name =>
    rw [Place.type, Place.intrinsic] at h
    split at h <;> cases h
  | string | number | boolean => cases h
  | array | record | union =>
    rw [Place.type, bind_eq_ok_iff] at h
    obtain ⟨_, _, heq⟩ := h
    cases heq
  | model written =>
    rw [Place.type, bind_eq_ok_iff] at h
    obtain ⟨properties, _, heq⟩ := h
    cases heq
    rw [Keyed.map_ofList]
    exact Keyed.keysOf_nodup _ _

/-! ## Declarations -/

/-- What is resolved where there is a value comes from the value. -/
theorem exists_of_resolveOptional {α β : Type} {resolve : α → Except LoadError β}
    {value : Option α} {b : β} (h : resolveOptional resolve value = .ok (some b)) :
    ∃ a, value = some a ∧ resolve a = .ok b := by
  cases value with
  | none => cases h
  | some a =>
    obtain ⟨b', hb, heq⟩ := bind_eq_ok_iff.mp h
    cases heq
    exact ⟨a, rfl, hb⟩

variable {d : Declaration}

theorem scalar_eq_ok_iff {s : Document.Scalar} :
    Load.scalar place s = .ok d ↔
      ∃ base, resolveOptional (place.declarationOf .scalar) s.base = .ok base ∧
        d = .scalar { doc := s.doc, base, constraints := s.constraints } := by
  unfold Load.scalar
  rw [bind_eq_ok_iff]
  constructor
  · rintro ⟨base, hbase, heq⟩
    cases heq
    exact ⟨base, hbase, rfl⟩
  · rintro ⟨base, hbase, rfl⟩
    exact ⟨base, hbase, rfl⟩

theorem union_eq_ok_iff {u : Document.Union} :
    Load.union place u = .ok d ↔
      ∃ variants, (u.variants.mapM fun v => do return (⟨v.name, ← place.type v.type⟩ : Variant)) =
          .ok variants ∧
        d = .union { doc := u.doc, variants } := by
  unfold Load.union
  rw [bind_eq_ok_iff]
  constructor
  · rintro ⟨variants, hvariants, heq⟩
    cases heq
    exact ⟨variants, hvariants, rfl⟩
  · rintro ⟨variants, hvariants, rfl⟩
    exact ⟨variants, hvariants, rfl⟩

theorem property_eq_ok_iff {enums : Enums} {p : Document.Property} {q : Property} :
    property enums place p = .ok q ↔
      ∃ type, { place with context := place.context ++ "." ++ p.name }.type p.type = .ok type ∧
        q = { name := p.name, type, optional := p.optional,
              default := p.default.bind (defaultOf? enums type), doc := p.doc,
              constraints := p.constraints } := by
  unfold property
  rw [bind_eq_ok_iff]
  constructor
  · rintro ⟨type, htype, heq⟩
    cases heq
    exact ⟨type, htype, rfl⟩
  · rintro ⟨type, htype, rfl⟩
    exact ⟨type, htype, rfl⟩

theorem model_eq_ok_iff {enums : Enums} {m : Document.Model} :
    Load.model enums place m = .ok d ↔
      ∃ base indexer properties,
        resolveOptional (place.declarationOf .model) m.base = .ok base ∧
        resolveOptional place.type m.indexer = .ok indexer ∧
        m.properties.mapM (property enums place) = .ok properties ∧
        d = .model { doc := m.doc, base, indexer, properties := Keyed.ofList (·.name) properties,
                     constraints := m.constraints } := by
  unfold Load.model
  simp only [bind_eq_ok_iff]
  constructor
  · rintro ⟨base, hbase, indexer, hindexer, properties, hproperties, heq⟩
    cases heq
    exact ⟨base, indexer, properties, hbase, hindexer, hproperties, rfl⟩
  · rintro ⟨base, indexer, properties, hbase, hindexer, hproperties, rfl⟩
    exact ⟨base, hbase, indexer, hindexer, properties, hproperties, rfl⟩

/-- A default that is a member of an enum is one of the enum that the property has for a type. -/
theorem member_of_defaultOf? {enums : Enums} {type : Ty} {value : Json.Value} {enum : DeclId}
    {index : Nat} (h : defaultOf? enums type value = some (.member enum index)) :
    type = .ref enum ∧ ∃ e, (enum, e) ∈ enums ∧ index < e.members.length := by
  cases value with
  | string s =>
    cases type with
    | ref id =>
      rw [defaultOf?, Option.some.injEq] at h
      cases he : enums.lookup id with
      | none =>
        rw [he] at h
        cases h
      | some e =>
        rw [he, Option.bind_some] at h
        cases hindex : e.members.findIdx? (·.name == s) with
        | none =>
          rw [hindex] at h
          cases h
        | some i =>
          rw [hindex] at h
          cases h
          exact ⟨rfl, e, Keyed.mem_of_lookup he, (List.findIdx?_eq_some_iff_getElem.mp hindex).1⟩
    | _ => cases h
  | _ => cases h

/-! ## Operations -/

theorem body_eq_ok_iff {b : Document.Body} {payload : Body} :
    body place b = .ok payload ↔
      ∃ type, place.type b.type = .ok type ∧ payload =
        { type, contentTypes := if b.contentTypes.isEmpty then [jsonContentType]
                                else b.contentTypes } := by
  unfold body
  rw [bind_eq_ok_iff]
  constructor
  · rintro ⟨type, htype, heq⟩
    cases heq
    exact ⟨type, htype, rfl⟩
  · rintro ⟨type, htype, rfl⟩
    exact ⟨type, htype, rfl⟩

/-- The place of what is written in an operation. -/
def operationPlace (namespaces : List Namespace) (home : NamespaceId) (interface : Option String)
    (op : Document.Operation) : Place :=
  ⟨namespaces, home, home.qualify (operationName interface op)⟩

/-- A parameter with its type. -/
def parameter (place : Place) (p : Document.Parameter) : Except LoadError Parameter := do
  return { name := p.name, location := p.location, type := ← place.type p.type,
           optional := p.optional, doc := p.doc }

/-- A response with its payloads. -/
def response (place : Place) (r : Document.Response) : Except LoadError Response := do
  return { status := r.status, description := r.description,
           bodies := ← r.bodies.mapM (body place) }

theorem operation_eq_ok_iff {namespaces : List Namespace} {home : NamespaceId}
    {interface : Option String} {written : Document.Operation} {op : Operation} :
    operation namespaces home interface written = .ok op ↔
      ∃ parameters payload responses,
        written.parameters.mapM (parameter (operationPlace namespaces home interface written)) =
          .ok parameters ∧
        resolveOptional (body (operationPlace namespaces home interface written)) written.body =
          .ok payload ∧
        written.responses.mapM (response (operationPlace namespaces home interface written)) =
          .ok responses ∧
        op = { home, interface, name := written.name, verb := written.verb, path := written.path,
               doc := written.doc, summary := written.summary, parameters, body := payload,
               responses } := by
  unfold operation
  simp only [bind_eq_ok_iff]
  constructor
  · rintro ⟨parameters, hparameters, payload, hpayload, responses, hresponses, heq⟩
    cases heq
    exact ⟨parameters, payload, responses, hparameters, hpayload, hresponses, rfl⟩
  · rintro ⟨parameters, payload, responses, hparameters, hpayload, hresponses, rfl⟩
    exact ⟨parameters, hparameters, payload, hpayload, responses, hresponses, rfl⟩

end Load

end ApiEmit
