/-
ApiEmit.Proofs.ArenaRefines — an arena is loaded as a graph is.

The passes follow one another: the names of the document are declared on top of the library, the
declarations are filled in kind by kind, and the operations are added. What each pass leaves is the
form of what the graph has by then, so a document is refused with one error by both, and otherwise
its arena is the form of its graph (`Arena.ofDocument_refines`).
-/
import ApiEmit.Proofs.ArenaLibrary
import ApiEmit.Proofs.ArenaOperations
import ApiEmit.Proofs.Loaded

namespace ApiEmit

namespace Load

variable {doc : Document}

/-- The namespaces below the global one are new where only a library is. -/
theorem new_of_mem_sitesBelow {s : Site} (hs : s ∈ sitesBelow .root 1 doc.root.namespaces) :
    s.id ∉ (Library.graph Library.scalars).namespaces.map (·.id) := by
  intro hmem
  have hids : (Library.graph Library.scalars).namespaces.map (·.id) =
      [NamespaceId.root, NamespaceId.library] := rfl
  rw [hids, List.mem_cons, List.mem_singleton] at hmem
  rcases hmem with hroot | hlibrary
  · exact ne_of_mem_sitesBelow hs hroot
  · exact not_library_suffix hs (hlibrary ▸ List.suffix_refl _)

/-- An entry is listed in the table under its kind. -/
theorem listed_of_mem_entries {α : Type} {list : Document.Namespace → List α} {name : α → String}
    {kind : Kind} (hkind : ∀ (ns : Document.Namespace), ∀ x ∈ list ns, (name x, kind) ∈ ns.declared)
    {entry : DeclId × α} (h : entry ∈ entries list name (sites .root doc.root)) :
    Listed (table doc) entry.1 kind := by
  obtain ⟨⟨ns, around⟩, hscope, hx, hname⟩ := mem_entries_iff.mp h
  exact mem_table_of_scope hscope (hname ▸ hkind ns entry.2 hx)

end Load

namespace Arena

open Load

variable {doc : Document} {L : Legend} {g : Graph} {a : Arena}

/-! ## Declaring -/

/-- After the names are declared, the namespaces are those of the document. -/
theorem declareNames_follows (h : Declaring L (Library.graph Library.scalars) a) :
    Follows (Loader.declareNamespace ⟨0⟩ doc.root) a
      ((sites .root doc.root).forM fun s => checkDistinct s.declare)
      (Declares L a
        { namespaces := table doc, declarations := Library.declarations, operations := [],
          diagnostics := [] }
        fun L' => PendingOf L' (sites .root doc.root)) := by
  rw [table_eq]
  exact declareTree_follows.1 .root doc.root L _ a ⟨0⟩ h rfl fun s hs => new_of_mem_sitesBelow hs

/-! ## Filling in -/

/-- The names of a document, declared and not resolved. -/
def named (doc : Document) : Graph where
  namespaces := table doc
  declarations := Library.declarations
  operations := []
  diagnostics := []

/-- The declarations of the enums. -/
def enumDeclarations (doc : Document) : List (DeclId × Declaration) :=
  (enumsOf doc).map fun (id, e) => (id, .enum e)

theorem lookup_enumDeclarations (d : DeclId) :
    (enumDeclarations doc).lookup d = ((enumsOf doc).lookup d).map .enum := by
  unfold enumDeclarations
  induction enumsOf doc with
  | nil => rfl
  | cons entry rest ih =>
    obtain ⟨d', e⟩ := entry
    by_cases hd : d = d'
    · subst hd
      simp
    · rw [List.map_cons, Keyed.lookup_cons_of_ne hd, Keyed.lookup_cons_of_ne hd, ih]

theorem ids_enumDeclarations : (enumDeclarations doc).map (·.1) =
    (entries (·.enums) (·.name) (sites .root doc.root)).map (·.1) := by
  rw [enumDeclarations, enumsOf, List.map_map, List.map_map]
  rfl

/-- The enums need not be resolved. -/
theorem resolveAll_enums (namespaces : List ApiEmit.Namespace) :
    resolveAll namespaces (fun _ (e : Document.Enum) => .ok (.enum ⟨e.doc, e.members⟩))
      (entries (·.enums) (·.name) (sites .root doc.root)) = .ok (enumDeclarations doc) := by
  unfold resolveAll enumDeclarations enumsOf
  induction entries (·.enums) (·.name) (sites .root doc.root) with
  | nil => rfl
  | cons entry rest ih =>
    rw [List.mapM_cons, ih]
    rfl

/-- When the enums are filled in they are those of the document, as the library has none. -/
theorem enumsAre_add (hnodup : (allIds doc).Nodup) :
    EnumsAre (enumsOf doc) ((named doc).add (enumDeclarations doc)) := by
  intro d e
  rw [Graph.declaration?_add, lookup_enumDeclarations]
  cases hd : (named doc).declaration? d with
  | none => simp
  | some decl =>
    have hbuiltIn : (d, decl) ∈ Library.declarations := Keyed.mem_of_lookup hd
    rw [Option.some_or, Option.some.injEq]
    constructor
    · rintro rfl
      cases kind_of_builtIn hbuiltIn
    · intro he
      have henum : d ∈ (enumDeclarations doc).map (·.1) := by
        rw [← Keyed.isSome_lookup_iff, lookup_enumDeclarations, he]
        rfl
      have hlibrary := hnodup.of_append_left.of_append_left.of_append_left
      rw [← ids_enumDeclarations, List.nodup_append] at hlibrary
      exact absurd rfl (hlibrary.2.2 d (List.mem_map_of_mem hbuiltIn) d henum)

theorem fillEnums_follows (h : Represents L (named doc) a) (hnodup : (allIds doc).Nodup)
    {slots : List (Loader.Slot Document.Enum)}
    (hslots : List.Forall₂ (IsSlot L (·.name))
      (entries (·.enums) (·.name) (sites .root doc.root)) slots) :
    Follows (slots.forM Loader.fillEnum) a (.ok (enumDeclarations doc)) fun declarations _ a' =>
      Represents L ((named doc).add declarations) a' := by
  have hfill : ∀ g a d x slot, True → Represents L g a → IsSlot L (·.name) (d, x) slot →
      g.declaration? d = none → Listed g.namespaces d .enum →
      Follows (Loader.fillEnum slot) a (.ok (.enum ⟨x.doc, x.members⟩)) (Fills L g d .enum) :=
    fun g a d x slot _ h hslot hnew hlisted => fillEnum_follows h hslot hnew hlisted
  have hlisted : ∀ entry ∈ entries (·.enums) (·.name) (sites .root doc.root),
      Listed (table doc) entry.1 .enum := by
    refine fun entry hentry => listed_of_mem_entries (fun _ e he => ?_) hentry
    exact Load.mem_declared_iff.mpr ⟨e, he, rfl⟩
  rw [← resolveAll_enums (table doc)]
  refine (fillAll_follows (fun _ _ _ _ _ _ => trivial) hfill hslots
    hnodup.of_append_left.of_append_left.of_append_left hlisted trivial h).imp ?_
  exact fun _ _ _ hpost => hpost.2.2

/-- What a pass after the enums adds: declarations with certain identities, and no enums. -/
def Adds (L : Legend) (g : Graph) (enums : Enums) (ids : List DeclId)
    (declarations : List (DeclId × Declaration)) (_ : Unit) (a' : Arena) : Prop :=
  declarations.map (·.1) = ids ∧ EnumsAre enums (g.add declarations) ∧
    Represents L (g.add declarations) a'

section

variable (h : Represents L g a) (hg : g.namespaces = table doc)
  (henums : EnumsAre (enumsOf doc) g)

include h hg henums

theorem fillScalars_follows {slots : List (Loader.Slot Document.Scalar)}
    (hslots : List.Forall₂ (IsSlot L (·.name))
      (entries (·.scalars) (·.name) (sites .root doc.root)) slots)
    (hnodup : (g.declarations.map (·.1) ++
      (entries (·.scalars) (·.name) (sites .root doc.root)).map (·.1)).Nodup) :
    Follows (slots.forM Loader.fillScalar) a
      (resolveAll (table doc) Load.scalar (entries (·.scalars) (·.name) (sites .root doc.root)))
      (Adds L g (enumsOf doc)
        ((entries (·.scalars) (·.name) (sites .root doc.root)).map (·.1))) := by
  have hlisted : ∀ entry ∈ entries (·.scalars) (·.name) (sites .root doc.root),
      Listed g.namespaces entry.1 .scalar := by
    refine fun entry hentry => hg ▸ listed_of_mem_entries (fun _ s hs => ?_) hentry
    exact Load.mem_declared_iff.mpr ⟨s, hs, rfl⟩
  rw [← hg]
  exact fillAll_follows (fun _ _ _ h hnew hkind => h.add hnew (by rw [hkind]; nofun))
    (fun _ _ _ _ _ _ h hslot hnew hlisted => fillScalar_follows h hslot hnew hlisted)
    hslots hnodup hlisted henums h

theorem fillUnions_follows {slots : List (Loader.Slot Document.Union)}
    (hslots : List.Forall₂ (IsSlot L (·.name))
      (entries (·.unions) (·.name) (sites .root doc.root)) slots)
    (hnodup : (g.declarations.map (·.1) ++
      (entries (·.unions) (·.name) (sites .root doc.root)).map (·.1)).Nodup) :
    Follows (slots.forM Loader.fillUnion) a
      (resolveAll (table doc) Load.union (entries (·.unions) (·.name) (sites .root doc.root)))
      (Adds L g (enumsOf doc)
        ((entries (·.unions) (·.name) (sites .root doc.root)).map (·.1))) := by
  have hlisted : ∀ entry ∈ entries (·.unions) (·.name) (sites .root doc.root),
      Listed g.namespaces entry.1 .union := by
    refine fun entry hentry => hg ▸ listed_of_mem_entries (fun _ u hu => ?_) hentry
    exact Load.mem_declared_iff.mpr ⟨u, hu, rfl⟩
  rw [← hg]
  exact fillAll_follows (fun _ _ _ h hnew hkind => h.add hnew (by rw [hkind]; nofun))
    (fun _ _ _ _ _ _ h hslot hnew hlisted => fillUnion_follows h hslot hnew hlisted)
    hslots hnodup hlisted henums h

theorem fillModels_follows {slots : List (Loader.Slot Document.Model)}
    (hslots : List.Forall₂ (IsSlot L (·.name))
      (entries (·.models) (·.name) (sites .root doc.root)) slots)
    (hnodup : (g.declarations.map (·.1) ++
      (entries (·.models) (·.name) (sites .root doc.root)).map (·.1)).Nodup) :
    Follows (slots.forM Loader.fillModel) a
      (resolveAll (table doc) (Load.model (enumsOf doc))
        (entries (·.models) (·.name) (sites .root doc.root)))
      (Adds L g (enumsOf doc)
        ((entries (·.models) (·.name) (sites .root doc.root)).map (·.1))) := by
  have hlisted : ∀ entry ∈ entries (·.models) (·.name) (sites .root doc.root),
      Listed g.namespaces entry.1 .model := by
    refine fun entry hentry => hg ▸ listed_of_mem_entries (fun _ m hm => ?_) hentry
    exact Load.mem_declared_iff.mpr ⟨m, hm, rfl⟩
  rw [← hg]
  exact fillAll_follows (fun _ _ _ h hnew hkind => h.add hnew (by rw [hkind]; nofun))
    (fun _ _ _ _ _ henums h hslot hnew hlisted => fillModel_follows h henums hslot hnew hlisted)
    hslots hnodup hlisted henums h

end

/-! ## Loading -/

/-- **A document is loaded to an arena as it is to a graph.** -/
theorem load_follows (doc : Document) : Follows (Loader.load doc) blank (Graph.ofDocument doc)
    fun g _ a => ∃ L, Represents L g a := by
  obtain ⟨_, a₁, hstep₁, L₁, h₁⟩ := declareLibrary_follows
  unfold Loader.load Graph.ofDocument
  dsimp only
  rw [← table_eq, ← sites_eq .root doc.root]
  refine Follows.silent hstep₁ ?_
  refine Follows.bind (declareNames_follows h₁) fun _ pending a₂ hpost => ?_
  obtain ⟨L, _, h₂, hpending⟩ := hpost
  have hnodup : (allIds doc).Nodup :=
    (allIds_perm_declIds doc).nodup_iff.mpr (declIds_nodup h₂.ids_nodup h₂.names_nodup)
  obtain ⟨_, a₃, hstep₃, h₃⟩ := fillEnums_follows h₂.toRepresents hnodup hpending.enums
  have henums₃ := enumsAre_add hnodup
  have hids₃ : ((named doc).add (enumDeclarations doc)).declarations.map (·.1) =
      Library.declarations.map (·.1) ++
        (entries (·.enums) (·.name) (sites .root doc.root)).map (·.1) := by
    rw [Graph.add, List.map_append, ids_enumDeclarations]
    rfl
  refine Follows.silent hstep₃ ?_
  refine Follows.bind (fillScalars_follows h₃ rfl henums₃ hpending.scalars ?_)
    fun scalars _ a₄ hpost => ?_
  · rw [hids₃]
    exact hnodup.of_append_left.of_append_left
  obtain ⟨hscalars, henums₄, h₄⟩ := hpost
  refine Follows.bind (fillUnions_follows h₄ rfl henums₄ hpending.unions ?_)
    fun unions _ a₅ hpost => ?_
  · rw [Graph.add, List.map_append, hids₃, hscalars]
    exact hnodup.of_append_left
  obtain ⟨hunions, henums₅, h₅⟩ := hpost
  refine Follows.bind (fillModels_follows h₅ rfl henums₅ hpending.models ?_)
    fun models _ a₆ hpost => ?_
  · rw [Graph.add, List.map_append, Graph.add, List.map_append, hids₃, hscalars, hunions]
    exact hnodup
  obtain ⟨_, _, h₆⟩ := hpost
  refine Follows.bind (addAll_follows h₆ rfl hpending.namespaces) fun operations _ a₇ h₇ => ?_
  exact ⟨(), _, rfl, L, { h₇ with diagnostics := rfl }⟩

/-- **Loading an arena refines loading a graph.** A document is refused with the same error, and
else its arena is the form of its graph; no index is followed that leads nowhere. -/
theorem ofDocument_refines (doc : Document) :
    match Graph.ofDocument doc with
    | .error e => Arena.ofDocument doc = .error (.refused e)
    | .ok g => ∃ a L, Arena.ofDocument doc = .ok a ∧ Represents L g a := by
  have hload := load_follows doc
  unfold Follows at hload
  unfold Arena.ofDocument
  cases hg : Graph.ofDocument doc with
  | error e =>
    rw [hg] at hload
    change ((Loader.load doc) blank).map (·.2) = _
    rw [hload]
    rfl
  | ok g =>
    rw [hg] at hload
    obtain ⟨_, a, hrun, L, hrepresents⟩ := hload
    refine ⟨a, L, ?_, hrepresents⟩
    change ((Loader.load doc) blank).map (·.2) = _
    rw [hrun]
    rfl

/-- Loading follows no index that leads nowhere. -/
theorem ofDocument_ne_outOfBounds (doc : Document) :
    Arena.ofDocument doc ≠ .error .outOfBounds := by
  intro hfault
  have hrefines := ofDocument_refines doc
  cases hg : Graph.ofDocument doc with
  | error e =>
    rw [hg, hfault] at hrefines
    cases hrefines
  | ok g =>
    rw [hg, hfault] at hrefines
    obtain ⟨a, _, ha, _⟩ := hrefines
    cases ha

/-- The arena of a document is the form of its graph. -/
theorem exists_represents {a : Arena} (h : Arena.ofDocument doc = .ok a) :
    ∃ g L, Graph.ofDocument doc = .ok g ∧ Represents L g a := by
  have hrefines := ofDocument_refines doc
  cases hg : Graph.ofDocument doc with
  | error e =>
    rw [hg] at hrefines
    cases h.symm.trans hrefines
  | ok g =>
    rw [hg] at hrefines
    obtain ⟨a', L, ha', hrepresents⟩ := hrefines
    cases h.symm.trans ha'
    exact ⟨g, L, rfl, hrepresents⟩

end Arena

end ApiEmit
