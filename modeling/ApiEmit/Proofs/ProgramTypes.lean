/-
ApiEmit.Proofs.ProgramTypes — all the types of a program.

A program has the intrinsics, a type for each declaration, and each expression that is written in
a declaration or in an operation (`Graph.types`). References and intrinsics are not written out
anew, however often they occur; every other expression is a type of its own for each time it is
written. From none of these types does a loaded program lead to any other.
-/
import ApiEmit.Proofs.Nesting
import ApiEmit.Proofs.Usage
import ApiEmit.Proofs.WellFormed

namespace ApiEmit.Graph

variable {doc : Document} {g : Graph} {t t' : Ty}

/-- The types that are written in declarations and operations. -/
def written (g : Graph) : List Ty :=
  g.declarations.flatMap (·.2.types) ++ g.operations.flatMap fun op => op.uses.map (·.1)

theorem mem_written_iff : t ∈ g.written ↔ g.Holds t := by
  simp only [written, List.mem_append, List.mem_flatMap, List.mem_map]
  constructor
  · rintro (⟨⟨id, d⟩, hd, ht⟩ | ⟨op, hop, ⟨_, role⟩, huse, rfl⟩)
    · exact .declared hd ht
    · have hcarries := Operation.mem_uses_iff.mp huse
      cases role with
      | input =>
        obtain ⟨b, hb, rfl⟩ | ⟨p, hp, rfl⟩ := hcarries
        · exact .request hop hb
        · exact .parameter hop hp
      | output =>
        obtain ⟨r, hr, b, hb, rfl⟩ := hcarries
        exact .response hop hr hb
  · have hused : ∀ role {op t}, op ∈ g.operations → op.Carries role t →
        ∃ op ∈ g.operations, ∃ use ∈ op.uses, use.1 = t := fun _ _ _ hop hcarries =>
      ⟨_, hop, _, Operation.mem_uses_iff.mpr hcarries, rfl⟩
    intro h
    cases h with
    | declared hd ht => exact .inl ⟨_, hd, ht⟩
    | parameter ho hp => exact .inr (hused .input ho (.inr ⟨_, hp, rfl⟩))
    | request ho hb => exact .inr (hused .input ho (.inl ⟨_, hb, rfl⟩))
    | response ho hr hb => exact .inr (hused .output ho ⟨_, hr, _, hb, rfl⟩)

/-- The intrinsics that every program has. -/
def intrinsics : List Ty :=
  [.intrinsic .null, .intrinsic .void, .intrinsic .never, .intrinsic .unknown]

/-- Whether a type is there once, however often it is written. -/
def isShared : Ty → Bool
  | .ref _ => true
  | .intrinsic i => i ≠ .error
  | _ => false

/-- All the types of a program. -/
def types (g : Graph) : List Ty :=
  intrinsics ++ g.declarations.map (.ref ·.1) ++
    (g.written.flatMap TypeExpr.nodes).filter (! isShared ·)

theorem mem_types_iff : t ∈ g.types ↔
    t ∈ intrinsics ∨ (∃ id d, (id, d) ∈ g.declarations ∧ t = .ref id) ∨
      isShared t = false ∧ ∃ w, g.Holds w ∧ w.Contains t := by
  simp only [types, List.mem_append, or_assoc, List.mem_map, Prod.exists, List.mem_filter,
    List.mem_flatMap, mem_written_iff, TypeExpr.mem_nodes_iff, Bool.not_eq_true', eq_comm (a := t)]
  rw [and_comm (b := isShared t = false)]

theorem mem_types_of_isSome {id : DeclId} (h : (g.declaration? id).isSome = true) :
    .ref id ∈ g.types := by
  obtain ⟨d, hd⟩ := Option.isSome_iff_exists.mp h
  exact mem_types_iff.mpr (.inr (.inl ⟨id, d, mem_declarations_of_declaration? hd, rfl⟩))

/-- What the types of a program refer to is declared. -/
theorem exists_declaration?_of_mem_types {id : DeclId} (ht : .ref id ∈ g.types) :
    ∃ declaration, g.declaration? id = some declaration := by
  obtain hintrinsic | ⟨_, _, hmem, heq⟩ | ⟨hshared, _⟩ := mem_types_iff.mp ht
  · simp [intrinsics] at hintrinsic
  · cases heq
    exact exists_declaration?_of_mem hmem
  · cases hshared

/-- What stands in a loaded program, at any depth, is one of its types. -/
theorem mem_types_of_holds (h : Graph.ofDocument doc = .ok g) (hheld : g.Holds t)
    (hinner : t.Contains t') : t' ∈ g.types := by
  rw [mem_types_iff]
  cases hshared : isShared t' with
  | false => exact .inr (.inr ⟨rfl, t, hheld, hinner⟩)
  | true =>
    cases t' with
    | ref id =>
      have hstored : g.Stores id := .referred hheld hinner
      obtain ⟨d, hd⟩ := hstored.exists_declaration h
      exact .inr (.inl ⟨id, d, mem_declarations_of_declaration? hd, rfl⟩)
    | intrinsic i =>
      refine .inl ?_
      cases i with
      | error => cases hshared
      | null | void | never | unknown => simp [intrinsics]
    | string | number | boolean | array | record | union | model => cases hshared

/-- A type of a loaded program leads to types of it only. -/
theorem mem_types_of_opens (h : Graph.ofDocument doc = .ok g) (ht : t ∈ g.types)
    (hopens : g.Opens t t') : t' ∈ g.types := by
  cases hopens with
  | declared hd hmem =>
    exact mem_types_of_holds h (.declared (mem_declarations_of_declaration? hd) hmem)
      (TypeExpr.Contains.refl _)
  | part hpart =>
    obtain hintrinsic | ⟨id, _, _, rfl⟩ | ⟨_, w, hheld, hcontains⟩ := mem_types_iff.mp ht
    · obtain ⟨i, rfl⟩ : ∃ i, t = .intrinsic i := by
        simp only [intrinsics, List.mem_cons, List.not_mem_nil, or_false] at hintrinsic
        obtain rfl | rfl | rfl | rfl := hintrinsic <;> exact ⟨_, rfl⟩
      cases hpart
    · cases hpart
    · exact mem_types_of_holds h hheld (hcontains.tail hpart)

theorem mem_types_of_reflTransGen {calls : Ty → Ty → Prop}
    (hcalls : ∀ t t', calls t t' → g.Opens t t') (h : Graph.ofDocument doc = .ok g)
    (ht : t ∈ g.types) (hleads : Relation.ReflTransGen calls t t') : t' ∈ g.types := by
  induction hleads with
  | refl => exact ht
  | tail _ hcall ih => exact mem_types_of_opens h ih (hcalls _ _ hcall)

/-- A recursion over the types of a loaded program that meets no cycle is nested no deeper than
there are types. -/
theorem nestedWithin_length_types {calls : Ty → Ty → Prop}
    (hcalls : ∀ t t', calls t t' → g.Opens t t') (h : Graph.ofDocument doc = .ok g)
    (ht : t ∈ g.types) (hcycle : MeetsNoCycle calls t) :
    NestedWithin calls g.types.length t :=
  nestedWithin_of_meetsNoCycle (fun _ => mem_types_of_reflTransGen hcalls h ht) hcycle

/-- No two properties of an inline model of a loaded program have one name. -/
theorem inlineNames_nodup {properties : List (InlineProperty Ty)}
    (h : Graph.ofDocument doc = .ok g) (ht : .model properties ∈ g.types) :
    (properties.map (·.name)).Nodup := by
  obtain hintrinsic | ⟨_, _, _, heq⟩ | ⟨_, w, hheld, hcontains⟩ := mem_types_iff.mp ht
  · simp [intrinsics] at hintrinsic
  · cases heq
  · rcases hheld.isWritten_or_base h with ⟨place, _, e, htype⟩ | ⟨base, rfl, _⟩
    · obtain ⟨_, hwritten⟩ := Load.exists_type_of_contains htype hcontains
      exact Load.names_nodup_of_type hwritten
    · cases TypeExpr.ref_contains_iff.mp hcontains

end ApiEmit.Graph
