/-
ApiEmit.Proofs.ArenaAnswers — what is asked of a loaded arena.

Where an arena is the form of a graph, a question about an index has the answer that the graph has
for what the index is for (`Represents.answers`). The walks take the same way: at an index that is
for a namespace or a declaration, one has been where the other has been, and they go on to the same
children and the same base. With what loading an arena is, this gives what
`Arena.ofDocument_wellFormed` says of every document that is loaded.
-/
import ApiEmit.Proofs.ArenaAccess
import ApiEmit.Proofs.ScalarChains
import ApiEmit.Proofs.Walks

namespace ApiEmit

/-! ## Types that are built in -/

/-- Whether a type is declared in the reserved part of the tree, as the containers are. -/
def TypeExpr.isLibrary : Ty → Bool
  | .ref d => d.isReserved
  | .array _ | .record _ => true
  | _ => false

/-- The name of a type behind the path of its namespace. Inline models and unions and literals have
none. -/
def TypeExpr.qualifiedName : Ty → String
  | .ref d => d.qualifiedName
  | .array _ => NamespaceId.library.qualify "Array"
  | .record _ => NamespaceId.library.qualify "Record"
  | .intrinsic k => k.name
  | _ => ""

/-- Whether a type is an inline model, or one that cannot be told from it. -/
def Graph.isStructuralType (g : Graph) : Ty → Bool
  | .ref d => g.isStructural d
  | .array _ | .record _ | .model _ => true
  | _ => false

/-- The scalars from a type to its root, none if it is no scalar. -/
def Graph.scalarChainOf (g : Graph) : Ty → List DeclId
  | .ref d => g.scalarChain d
  | _ => []

namespace Arena

variable {L : Legend} {g : Graph} {a : Arena}

/-! ## What answers show -/

/-- An index leads to the node of an operation. -/
def ShowsAt (L : Legend) (a : Arena) (op : ApiEmit.Operation) (i : OperationIndex) : Prop :=
  ∃ shown, a.operation? i = some shown ∧ ShowsOperation L a.types op shown

/-- A service shows one of a graph. -/
structure ShowsService (L : Legend) (a : Arena) (s : ApiEmit.Service) (t : Service) : Prop where
  home : L.IsPlace s.home t.home
  title : t.title = s.title
  operations : List.Forall₂ (ShowsAt L a) s.operations t.operations

/-- Whatever is asked of an arena has the answer that a graph has. -/
structure Answers (L : Legend) (g : Graph) (a : Arena) : Prop where
  /-- A type is a model just if it has properties, and they are those that the model has. -/
  model : ∀ t i, Shows L a.types t i → ∃ found, a.model? i = some found ∧
    Option.Rel (fun properties (m : Model) =>
      List.Forall₂ (ShowsProperty L a.types) properties m.properties) (g.properties? t) found
  isLibraryType : ∀ t i, Shows L a.types t i → a.isLibraryType? i = some t.isLibrary
  isStructural : ∀ t i, Shows L a.types t i → a.isStructural? i = some (g.isStructuralType t)
  qualifiedName : ∀ t i, Shows L a.types t i → a.qualifiedName? i = some t.qualifiedName
  scalarChain : ∀ t i, Shows L a.types t i → ∃ chain, a.scalarChain? i = some chain ∧
    List.Forall₂ L.IsDecl (g.scalarChainOf t) chain
  path : ∀ place i, L.IsPlace place i → a.path? i = some place.path
  fullName : ∀ place i, L.IsPlace place i → a.fullName? i = some place.fullName
  isReserved : ∀ place i, L.IsPlace place i → a.isReserved? i = some place.isReserved
  operationsIn : ∀ place i, L.IsPlace place i → ∃ found, a.operationsIn? i = some found ∧
    List.Forall₂ (ShowsAt L a) (g.operationsIn place) found
  operationsWithin : ∀ place i, L.IsPlace place i → ∃ found, a.operationsWithin? i = some found ∧
    List.Forall₂ (ShowsAt L a) (g.operationsWithin place) found
  services : ∃ found, a.services? = some found ∧
    List.Forall₂ (ShowsService L a) g.services found

/-- What a walk comes to: the index for a place, with the node there. -/
def ShowsEntry (L : Legend) (a : Arena) (place : NamespaceId) (entry : NamespaceIndex × Namespace) :
    Prop :=
  L.IsPlace place entry.1 ∧ a.namespace? entry.1 = some entry.2

namespace Represents

/-! ## Types -/

theorem isReserved?_eq (h : Represents L g a) {place : NamespaceId} {i : NamespaceIndex}
    (hi : L.IsPlace place i) : a.isReserved? i = some place.isReserved := by
  rw [isReserved?, h.path?_eq hi]
  rfl

/-- Of inline types only the containers are declared in the reserved part of the tree. -/
theorem isLibraryType?_eq (h : Represents L g a) (hg : g.Coherent) {t : Ty} {i : TypeIndex}
    (hi : Shows L a.types t i) : a.isLibraryType? i = some t.isLibrary := by
  have hlibrary : NamespaceId.library.isReserved = true := by decide
  cases hi with
  | ref hi =>
    obtain ⟨_, _, _, hnode, hshows⟩ := h.exists_declaration hg hi
    obtain ⟨home, hhome, hplace⟩ := hshows.exists_home
    rw [isLibraryType?, hnode, Option.bind_eq_bind, Option.bind_some, hhome]
    exact h.isReserved?_eq hplace
  | intrinsic hi | string hi | number hi | boolean hi | union hi | model hi =>
    rw [isLibraryType?, type?, hi.2]
    rfl
  | array hi | record hi =>
    rw [isLibraryType?, type?, hi.2]
    exact (h.isReserved?_eq h.library).trans (congrArg some hlibrary)

theorem isStructural?_eq (h : Represents L g a) (hg : g.Coherent) {t : Ty} {i : TypeIndex}
    (hi : Shows L a.types t i) : a.isStructural? i = some (g.isStructuralType t) := by
  have hlibrary := h.isLibraryType?_eq hg hi
  cases hi with
  | @ref d _ hi =>
    obtain ⟨decl, _, hdecl, hnode, hshows⟩ := h.exists_declaration hg hi
    rw [isStructural?, hnode, Graph.isStructuralType, Graph.isStructural, Graph.model?, hdecl]
    cases hshows with
    | model =>
      dsimp only [Option.bind_eq_bind, Option.bind_some]
      rw [hlibrary, TypeExpr.isLibrary]
      by_cases hname : d.name = ""
      · simp [hname]
      · simp [hname]
    | scalar | enum | union => rfl
  | intrinsic hi | string hi | number hi | boolean hi | union hi | model hi =>
    rw [isStructural?, type?, hi.2]
    rfl
  | array hi | record hi =>
    rw [isStructural?, type?, hi.2]
    exact hlibrary

theorem qualifiedName?_eq (h : Represents L g a) (hg : g.Coherent) {t : Ty} {i : TypeIndex}
    (hi : Shows L a.types t i) : a.qualifiedName? i = some t.qualifiedName := by
  cases hi with
  | @ref d _ hi =>
    obtain ⟨decl, node, _, hnode, hshows⟩ := h.exists_declaration hg hi
    obtain ⟨home, hhome, hplace⟩ := hshows.exists_home
    have hname : node.name?.getD "" = d.name := by
      have hlabel : node.name? = (some d.name).filter (· ≠ "") := by
        cases hshows <;> rfl
      rw [hlabel, Option.filter_some]
      by_cases hempty : d.name = ""
      · simp [hempty]
      · simp [hempty]
    rw [qualifiedName?, hnode, Option.bind_eq_bind, Option.bind_some, hname, hhome]
    exact h.qualify?_eq hplace d.name
  | @intrinsic k _ hi =>
    rw [qualifiedName?, type?, hi.2]
    cases k <;> rfl
  | string hi | number hi | boolean hi | union hi | model hi =>
    rw [qualifiedName?, type?, hi.2]
    rfl
  | array hi | record hi =>
    rw [qualifiedName?, type?, hi.2]
    exact h.qualify?_eq h.library _

/-- A node is that of a model just if the type has properties. -/
theorem exists_model? (h : Represents L g a) (hg : g.Coherent) {t : Ty} {i : TypeIndex}
    (hi : Shows L a.types t i) : ∃ found, a.model? i = some found ∧
      Option.Rel (fun properties (m : Model) =>
        List.Forall₂ (ShowsProperty L a.types) properties m.properties)
          (g.properties? t) found := by
  cases hi with
  | @ref d _ hi =>
    obtain ⟨decl, _, hdecl, hnode, hshows⟩ := h.exists_declaration hg hi
    rw [model?, hnode, Option.map_some, Graph.properties?, Graph.model?, hdecl]
    cases hshows with
    | model _ hproperties => exact ⟨_, rfl, .some hproperties⟩
    | scalar | enum | union => exact ⟨_, rfl, .none⟩
  | intrinsic hi | string hi | number hi | boolean hi | union hi =>
    rw [model?, type?, hi.2]
    exact ⟨_, rfl, .none⟩
  | array hi | record hi =>
    rw [model?, type?, hi.2]
    exact ⟨_, rfl, .some .nil⟩
  | model hi hps =>
    rw [model?, type?, hi.2]
    refine ⟨_, rfl, .some (List.forall₂_map_left_iff.mpr ?_)⟩
    refine (showsInline_iff_forall₂.mp hps).imp fun p q hq => ?_
    rw [hq.2]
    exact { name := rfl, type := hq.1, optional := rfl, default := .none, doc := rfl,
            constraints := rfl }

/-! ## Chains of scalars -/

/-- An index is for one declaration. -/
theorem decl_eq {d d' : DeclId} {i : TypeIndex} (hi : L.IsDecl d i) (hi' : L.IsDecl d' i) :
    d = d' :=
  Option.some.inj (hi.symm.trans hi')

/-- The walk along bases takes the way that a chain takes in the graph. -/
theorem exists_chainFrom (h : Represents L g a) (hg : g.Coherent) {steps : Nat}
    {seen : List DeclId} {seenIds : List TypeIndex} (hseen : List.Forall₂ L.IsDecl seen seenIds)
    {d : DeclId} {i : TypeIndex} (hi : L.IsDecl d i) {chain : List TypeIndex}
    (hchain : a.scalarChainFrom? steps seenIds i = some chain) :
    ∃ scalars, g.ChainFrom seen d scalars ∧ List.Forall₂ L.IsDecl scalars chain := by
  induction steps generalizing seen seenIds d i chain with
  | zero => cases hchain
  | succ steps ih =>
    rw [scalarChainFrom?] at hchain
    have hmem : i ∈ seenIds ↔ d ∈ seen :=
      Aligned.mem_iff hseen (fun _ _ _ => decl_eq) h.owner_inj hi
    by_cases hd : d ∈ seen
    · rw [if_pos (List.contains_iff_mem.mpr (hmem.mpr hd))] at hchain
      cases hchain
      exact ⟨[], .seen hd, .nil⟩
    · rw [if_neg (by rwa [List.contains_iff_mem, hmem])] at hchain
      obtain ⟨decl, node, hdecl, hnode, hshows⟩ := h.exists_declaration hg hi
      rw [hnode, Option.bind_eq_bind, Option.bind_some] at hchain
      cases hshows with
      | model | enum | union =>
        cases hchain
        exact ⟨[], .other (by rw [Graph.scalar?, hdecl]), .nil⟩
      | @scalar s home base _ hbase =>
        have hscalar : g.scalar? d = some s := Graph.scalar?_eq_some_iff.mpr hdecl
        rcases Aligned.option_cases hbase with ⟨hnone, rfl⟩ | ⟨b, base, hsome, rfl, hshown⟩
        · cases hchain
          exact ⟨[d], .root hd hscalar hnone, .cons hi .nil⟩
        · obtain ⟨rest, hrest, heq⟩ := Option.bind_eq_some_iff.mp hchain
          cases heq
          obtain ⟨scalars, hscalars, hshows⟩ := ih (.cons hi hseen) hshown hrest
          exact ⟨d :: scalars, .base hd hscalar hsome hscalars, .cons hi hshows⟩

/-- The chain of a scalar shows the one in the graph; at any other type there is none. -/
theorem forall₂_scalarChain (h : Represents L g a) (hg : g.Coherent) {t : Ty} {i : TypeIndex}
    (hi : Shows L a.types t i) {chain : List TypeIndex} (hchain : a.scalarChain? i = some chain) :
    List.Forall₂ L.IsDecl (g.scalarChainOf t) chain := by
  cases hi with
  | @ref d _ hi =>
    obtain ⟨scalars, hscalars, hshows⟩ := h.exists_chainFrom hg .nil hi hchain
    rw [Graph.scalarChainOf, (g.isScalarChain_scalarChain d).unique hscalars.isScalarChain]
    exact hshows
  | intrinsic hi | string hi | number hi | boolean hi | array hi | record hi | union hi
  | model hi =>
    rw [scalarChain?, scalarChainFrom?, type?, hi.2] at hchain
    cases hchain
    exact .nil

/-! ## Walks down the tree -/

/-- The walk with a stack takes the way that it takes in the graph. -/
theorem exists_stackWalk (h : Represents L g a) {steps : Nat} {seen stack : List NamespaceId}
    {seenIds stackIds : List NamespaceIndex} (hseen : List.Forall₂ L.IsPlace seen seenIds)
    (hstack : List.Forall₂ L.IsPlace stack stackIds)
    {found : List (NamespaceIndex × Namespace)}
    (hfound : a.walk? steps seenIds stackIds = some found) :
    ∃ places, g.StackWalk seen stack places ∧ List.Forall₂ (ShowsEntry L a) places found := by
  induction steps generalizing seen stack seenIds stackIds found with
  | zero =>
    cases hstack with
    | nil =>
      cases hfound
      exact ⟨[], .done, .nil⟩
    | cons => cases hfound
  | succ steps ih =>
    cases hstack with
    | nil =>
      cases hfound
      exact ⟨[], .done, .nil⟩
    | @cons place i stack stackIds hi hstack =>
      rw [walk?] at hfound
      have hmem : i ∈ seenIds ↔ place ∈ seen :=
        Aligned.mem_iff hseen (fun _ _ _ => place_eq) (fun _ _ _ => h.isPlace_inj) hi
      by_cases hplace : place ∈ seen
      · rw [if_pos (List.contains_iff_mem.mpr (hmem.mpr hplace))] at hfound
        obtain ⟨places, hwalk, hshows⟩ := ih hseen hstack hfound
        exact ⟨places, .again hplace hwalk, hshows⟩
      · rw [if_neg (by rwa [List.contains_iff_mem, hmem])] at hfound
        obtain ⟨ns, node, _, rfl, hnode, hns⟩ := h.exists_namespace hi
        rw [hnode, Option.bind_eq_bind, Option.bind_some] at hfound
        obtain ⟨rest, hrest, heq⟩ := Option.bind_eq_some_iff.mp hfound
        cases heq
        have hchildren : List.Forall₂ L.IsPlace (g.childrenOf ns.id) node.children := by
          rw [Graph.childrenOf, ← h.places]
          exact hns.children
        have hnext : List.Forall₂ L.IsPlace (g.childrenOf ns.id ++ stack)
            (node.children ++ stackIds) := List.rel_append hchildren hstack
        obtain ⟨places, hwalk, hshows⟩ := ih (.cons hi hseen) hnext hrest
        rw [← Graph.push_children] at hwalk
        exact ⟨ns.id :: places, .visit hplace hwalk, .cons ⟨hi, hnode⟩ hshows⟩

/-! ## Operations and services -/

/-- The operations of a namespace stand at the positions listed with it. -/
theorem forall₂_positionsIn (h : Represents L g a) (place : NamespaceId) :
    List.Forall₂ (ShowsAt L a) (g.operationsIn place) (positionsIn g.operations place) := by
  have hentries : g.operationsIn place =
      (g.operations.zipIdx.filter (·.1.home == place)).map (·.1) := by
    conv_lhs => rw [Graph.operationsIn, ← List.zipIdx_map_fst 0 g.operations, List.filter_map]
    rfl
  rw [hentries, positionsIn, List.forall₂_map_left_iff, List.forall₂_map_right_iff,
    List.forall₂_same]
  intro entry hentry
  have hop : g.operations[entry.2]? = some entry.1 :=
    List.mem_zipIdx_iff_getElem?.mp (List.mem_of_mem_filter hentry)
  obtain ⟨shown, hshown, hshows⟩ := Aligned.exists_getElem?_left h.operations.flip hop
  exact ⟨shown, hshown, hshows⟩

theorem exists_operationsIn (h : Represents L g a) {place : NamespaceId} {i : NamespaceIndex}
    (hi : L.IsPlace place i) : ∃ found, a.operationsIn? i = some found ∧
      List.Forall₂ (ShowsAt L a) (g.operationsIn place) found := by
  obtain ⟨ns, node, _, rfl, hnode, hns⟩ := h.exists_namespace hi
  rw [operationsIn?, hnode, Option.map_some, hns.operations]
  exact ⟨_, rfl, h.forall₂_positionsIn ns.id⟩

/-- The entries of some places have the operations that the places have. -/
theorem forall₂_flatMap_operations (h : Represents L g a) {places : List NamespaceId}
    {found : List (NamespaceIndex × Namespace)}
    (hshows : List.Forall₂ (ShowsEntry L a) places found) :
    List.Forall₂ (ShowsAt L a) (places.flatMap g.operationsIn)
      (found.flatMap (·.2.operations)) := by
  refine List.rel_flatMap hshows fun place entry hentry => ?_
  obtain ⟨ns, _, hplace, hns⟩ := h.exists_shows hentry.2
  rw [hns.operations, place_eq hplace hentry.1]
  exact h.forall₂_positionsIn place

section

variable {doc : Document} (h : Represents L g a) (hg : Graph.ofDocument doc = .ok g)

include h hg

theorem forall₂_operationsWithin {place : NamespaceId} {i : NamespaceIndex}
    (hi : L.IsPlace place i) {found : List OperationIndex}
    (hfound : a.operationsWithin? i = some found) :
    List.Forall₂ (ShowsAt L a) (g.operationsWithin place) found := by
  obtain ⟨ns, _, hns, rfl, _, _⟩ := h.exists_namespace hi
  obtain ⟨entries, hentries, rfl⟩ := Option.map_eq_some_iff.mp hfound
  obtain ⟨places, hwalk, hshows⟩ := h.exists_stackWalk .nil (.cons hi .nil) hentries
  rw [Graph.operationsWithin_eq_of_walk hg (List.mem_of_getElem? hns) hwalk]
  exact h.forall₂_flatMap_operations hshows

/-- The service at a namespace shows the one that the graph has there. -/
theorem exists_serviceAt (hwellFormed : a.WellFormed) {place : NamespaceId}
    {entry : NamespaceIndex × Namespace} (hentry : ShowsEntry L a place entry) :
    ∃ service, a.serviceAt? entry = some service ∧
      Option.Rel (ShowsService L a) ((g.namespace? place).bind fun ns =>
        ns.service.map fun mark => ⟨place, mark.title, g.operationsWithin place⟩) service := by
  obtain ⟨ns, hmem, hplace, hns⟩ := h.exists_shows hentry.2
  obtain rfl := place_eq hplace hentry.1
  have hfound : g.namespace? ns.id = some ns := Keyed.find?_key_eq_some h.ids_nodup hmem
  obtain ⟨operations, hoperations⟩ := hwellFormed.exists_operationsWithin hentry.2
  rw [serviceAt?, hoperations, hfound, Option.bind_some, hns.service]
  cases ns.service with
  | none => exact ⟨none, rfl, .none⟩
  | some mark =>
    exact ⟨_, rfl, .some ⟨hplace, rfl, h.forall₂_operationsWithin hg hplace hoperations⟩⟩

/-- The walk from the global namespace comes to the services of the graph, in their order. -/
theorem exists_services (hwellFormed : a.WellFormed) : ∃ found, a.services? = some found ∧
    List.Forall₂ (ShowsService L a) g.services found := by
  have hroot : L.IsPlace .root a.global := h.global ▸ h.root
  obtain ⟨_, _, _, _, hnode, _⟩ := h.exists_namespace hroot
  obtain ⟨entries, hentries, _⟩ := hwellFormed.exists_below hnode
  obtain ⟨places, hwalk, hshows⟩ := h.exists_stackWalk .nil (.cons hroot .nil) hentries
  obtain ⟨services, hservices, hall⟩ := Aligned.exists_mapM hshows
    fun _ _ => h.exists_serviceAt hg hwellFormed
  rw [services?, hentries, Option.bind_eq_bind, Option.bind_some, hservices]
  refine ⟨_, rfl, ?_⟩
  rw [Graph.services_eq_of_walk hg hwalk]
  exact List.rel_filterMap (fun _ _ hservice => hservice) hall

/-- **An arena that is the form of a loaded graph answers as the graph does.** -/
theorem answers : Answers L g a := by
  have hcoherent := Graph.coherent_of_ofDocument hg
  have hwellFormed := h.wellFormed (Graph.wellFormed_of_ofDocument hg).1
  have haccess := hwellFormed.accessible
  exact
    { model := fun t i => h.exists_model? hcoherent
      isLibraryType := fun t i => h.isLibraryType?_eq hcoherent
      isStructural := fun t i => h.isStructural?_eq hcoherent
      qualifiedName := fun t i => h.qualifiedName?_eq hcoherent
      scalarChain := fun t i hi => by
        have hnode := List.getElem?_eq_getElem (h.position_lt hi)
        obtain ⟨chain, hchain⟩ := haccess.scalarChain i _ hnode
        exact ⟨chain, hchain, h.forall₂_scalarChain hcoherent hi hchain⟩
      path := fun place i => h.path?_eq
      fullName := fun place i => h.fullName?_eq
      isReserved := fun place i => h.isReserved?_eq
      operationsIn := fun place i => h.exists_operationsIn
      operationsWithin := fun place i hi => by
        obtain ⟨_, _, _, _, hnode, _⟩ := h.exists_namespace hi
        obtain ⟨found, hfound⟩ := haccess.operationsWithin i _ hnode
        exact ⟨found, hfound, h.forall₂_operationsWithin hg hi hfound⟩
      services := h.exists_services hg hwellFormed }

end

end Represents

/-! ## Loaded arenas -/

/-- **A loaded arena is well formed.** No document makes loading follow an index that leads nowhere,
and an arena that is loaded is well formed and answers every question. It is the form of the graph
of its document, which has the same answers. -/
theorem ofDocument_wellFormed (doc : Document) :
    Arena.ofDocument doc ≠ .error .outOfBounds ∧
      ∀ a, Arena.ofDocument doc = .ok a → a.WellFormed ∧ a.Accessible ∧
        ∃ g L, Graph.ofDocument doc = .ok g ∧ Represents L g a ∧ Answers L g a := by
  refine ⟨ofDocument_ne_outOfBounds doc, fun a ha => ?_⟩
  obtain ⟨g, L, hg, hrepresents⟩ := exists_represents ha
  have hwellFormed := hrepresents.wellFormed (Graph.wellFormed_of_ofDocument hg).1
  exact ⟨hwellFormed, hwellFormed.accessible, g, L, hg, hrepresents, hrepresents.answers hg⟩

/-- A kennel: an enum with a default from it, a model that extends a model of an outer namespace,
a scalar with a base, and an operation. -/
def kennel : Document :=
  { root :=
      { name := ""
        enums := [⟨"Size", none, [⟨"small", none⟩, ⟨"large", none⟩]⟩]
        scalars := [⟨"Name", none, some "string", {}⟩]
        models := [⟨"Animal", none, none, none, [⟨"name", .ref "Name", false, none, none, {}⟩], {}⟩]
        namespaces := [
          { name := "Dogs"
            models := [⟨"Dog", none, some "Animal", none,
              [⟨"size", .ref "Size", false, some (.string "large"), none, {}⟩], {}⟩]
            operations := [⟨"list", .get, "/dogs", none, none, [], none,
              [⟨.code 200, none, [⟨.array (.ref "Dog"), []⟩]⟩]⟩] }] }
    diagnostics := [] }

theorem ofDocument_wellFormed_kennel : ∃ a, Arena.ofDocument kennel = .ok a ∧
    a.WellFormed ∧ a.Accessible ∧
      ∃ g L, Graph.ofDocument kennel = .ok g ∧ Represents L g a ∧ Answers L g a := by
  have hok : (Arena.ofDocument kennel).isOk = true := by decide +kernel
  cases ha : Arena.ofDocument kennel with
  | error e =>
    rw [ha] at hok
    cases hok
  | ok a => exact ⟨a, rfl, (ofDocument_wellFormed kennel).2 a ha⟩

end Arena

end ApiEmit
