/-
ApiEmit.Proofs.DocumentOrder — operations and services stand in the order of the document.

The order of a document is that of its tree: what stands in a namespace itself comes first, and then
what stands in its children, one after the other, each with all below it (`inOrder`). A program
keeps its operations in one list, each with the namespace that it is declared in, and picks out
those within a namespace by that. What is picked out are the operations of the tree of the namespace
in this order, and the services are the marked namespaces in this order. The walk with a stack comes
to each of the namespaces once and gathers the same operations.
-/
import ApiEmit.Proofs.Walks
import Mathlib.Data.List.Forall2

namespace ApiEmit

namespace Load

variable {α : Type}

/-! ## The order of a document -/

mutual

/-- What stands in a namespace itself, and then what stands in its children, one after the other,
each with those below it. -/
def inOrder (own : Site → List α) (id : NamespaceId) : Document.Namespace → List α
  | ns@{ namespaces := children, .. } => own ⟨id, ns⟩ ++ inOrderBelow own id 1 children

/-- What stands in some children of a namespace, counted from a position, each with those below
it. -/
def inOrderBelow (own : Site → List α) (parent : NamespaceId) (position : Nat) :
    List Document.Namespace → List α
  | [] => []
  | ns :: rest =>
    inOrder own (parent.child position ns.name) ns ++ inOrderBelow own parent (position + 1) rest

end

theorem inOrder_eq (own : Site → List α) (id : NamespaceId) (ns : Document.Namespace) :
    inOrder own id ns = own ⟨id, ns⟩ ++ inOrderBelow own id 1 ns.namespaces := by
  cases ns
  rfl

/-- The sites stand in the order of the document. -/
theorem flatMap_sites (own : Site → List α) :
    (∀ id ns, (sites id ns).flatMap own = inOrder own id ns) ∧
    ∀ id position rest,
      (sitesBelow id position rest).flatMap own = inOrderBelow own id position rest := by
  apply sites_induction
  · intro id ns ih
    rw [sites_eq, List.flatMap_cons, ih, inOrder_eq]
  · intro id position
    rfl
  · intro id position ns rest ihFirst ihRest
    rw [sitesBelow, List.flatMap_append, ihFirst, ihRest, inOrderBelow]

/-! ## Operations -/

variable {doc : Document} {g : Graph}

/-- What is written as an operation of a namespace is resolved to an operation there. -/
def ResolvedTo (doc : Document) (written : NamespaceId × Option String × Document.Operation)
    (op : Operation) : Prop :=
  operation (table doc) written.1 written.2.1 written.2.2 = .ok op

/-- All operations of a program stand in the order of its sites. -/
theorem forall₂_operations (hg : Graph.ofDocument doc = .ok g) :
    List.Forall₂ (ResolvedTo doc) ((sites .root doc.root).flatMap (·.operations))
      g.operations := by
  obtain ⟨_, _, _, _, operations, _, _, _, hoperations, rfl⟩ := ofDocument_eq_ok_iff.mp hg
  exact forall₂_of_mapM hoperations

/-- The operations at a place and below it are those of the sites there. -/
theorem filter_within_operations (id : NamespaceId) (all : List Site) :
    (all.flatMap (·.operations)).filter (·.1.isWithin id) =
      (sitesWithin id all).flatMap (·.operations) := by
  induction all with
  | nil => rfl
  | cons s rest ih =>
    rw [List.flatMap_cons, List.filter_append, ih, sitesWithin_cons]
    have hhome : ∀ entry ∈ s.operations, entry.1.isWithin id = s.id.isWithin id :=
      fun entry hentry => by rw [home_of_mem_operations hentry]
    split
    · rename_i hin
      have hall : s.operations.filter (·.1.isWithin id) = s.operations :=
        List.filter_eq_self.mpr fun entry hentry => (hhome entry hentry).trans hin
      rw [hall, List.flatMap_cons]
    · rename_i hout
      have hnone : s.operations.filter (·.1.isWithin id) = [] :=
        List.filter_eq_nil_iff.mpr fun entry hentry => hhome entry hentry ▸ hout
      rw [hnone, List.nil_append]

/-- The sites of a document within a known one have the operations of its tree. -/
theorem flatMap_sitesWithin {s : Site} (hs : s ∈ known doc) :
    (sitesWithin s.id (sites .root doc.root)).flatMap (·.operations) =
      inOrder Site.operations s.id s.content := by
  rcases mem_known_iff.mp hs with hs | rfl
  · rw [filter_within.1 _ _ s hs, (flatMap_sites _).1]
  · -- nothing that is written stands among the built-in scalars
    have hnone : sitesWithin .library (sites .root doc.root) = [] := by
      apply sitesWithin_eq_nil
      intro s hs
      rw [sites_eq] at hs
      rcases List.mem_cons.mp hs with rfl | hs
      · exact fun h => absurd (List.suffix_nil.mp h) (by decide)
      · exact not_library_suffix hs
    rw [hnone]
    rfl

/-- The operations within a namespace are those written in its tree, in the order of the
document. -/
theorem forall₂_operationsWithin (hg : Graph.ofDocument doc = .ok g) {s : Site}
    (hs : s ∈ known doc) :
    List.Forall₂ (ResolvedTo doc) (inOrder Site.operations s.id s.content)
      (g.operationsWithin s.id) := by
  rw [← flatMap_sitesWithin hs, ← filter_within_operations]
  refine List.rel_filter (fun entry op (h : ResolvedTo doc entry op) => ?_) (forall₂_operations hg)
  dsimp only
  rw [home_of_operation h]

/-! ## Services -/

/-- The service that a site is marked as, with the operations within it. -/
def serviceAt (g : Graph) (s : Site) : List Service :=
  (s.content.service.map fun mark => ⟨s.id, mark.title, g.operationsWithin s.id⟩).toList

theorem services_eq_flatMap (hg : Graph.ofDocument doc = .ok g) :
    g.services = (known doc).flatMap (serviceAt g) := by
  rw [Graph.services, namespaces_of_ofDocument hg, table, List.filterMap_map,
    List.filterMap_eq_flatMap_toList]
  refine List.flatMap_congr fun s _ => ?_
  rw [serviceAt, Function.comp_apply, Site.declare, Option.map_map]
  rfl

/-- The services are the marked namespaces in the order of the document. -/
theorem services_eq_inOrder (hg : Graph.ofDocument doc = .ok g) :
    g.services = inOrder (serviceAt g) .root doc.root := by
  have hlibrary : serviceAt g ⟨.library, Document.library⟩ = [] := rfl
  rw [services_eq_flatMap hg, ← (flatMap_sites _).1, sites_eq, known, List.flatMap_cons,
    List.flatMap_cons, List.flatMap_cons, hlibrary, List.nil_append]

end Load

namespace Graph

open Load (Site inOrder known serviceAt ResolvedTo)

variable {doc : Document} {g : Graph}

/-! ## Listings -/

/-- Namespaces that the walk from a place comes to: each of those there and below once. -/
structure ComesToAll (g : Graph) (start : NamespaceId) (found : List NamespaceId) : Prop where
  walk : g.StackWalk [] [start] found
  nodup : found.Nodup
  mem_iff : ∀ id, id ∈ found ↔ id ∈ g.namespaces.map (·.id) ∧ id.isWithin start = true

/-- What is listed as the operations within a site: those written in its tree, each once and in the
order of the document, which are those that the walk from there gathers. -/
structure ListsOperations (doc : Document) (g : Graph) (s : Site) : Prop where
  written : List.Forall₂ (ResolvedTo doc) (inOrder Site.operations s.id s.content)
    (g.operationsWithin s.id)
  gathered : ∃ found, ComesToAll g s.id found ∧
    g.operationsWithin s.id = found.flatMap g.operationsIn

/-- What is listed as services: the namespaces that are marked, each once and in the order of the
document, with the operations within it; the walk from the global namespace gathers the same. -/
structure ListsServices (doc : Document) (g : Graph) : Prop where
  written : g.services = inOrder (serviceAt g) .root doc.root
  nodup : (g.services.map (·.home)).Nodup
  mem_iff : ∀ ns ∈ g.namespaces, ns.id ∈ g.services.map (·.home) ↔ ns.service.isSome = true
  gathered : ∃ found, ComesToAll g .root found ∧
    g.services = found.filterMap fun id => (g.namespace? id).bind fun ns =>
      ns.service.map fun mark => ⟨id, mark.title, g.operationsWithin id⟩

theorem comesToAll (hg : Graph.ofDocument doc = .ok g) {ns : Namespace} (hns : ns ∈ g.namespaces) :
    ComesToAll g ns.id ((g.namespaces.map (·.id)).filter (·.isWithin ns.id)) where
  walk := Load.stackWalk_within hg hns
  nodup := (coherent_of_ofDocument hg).ids_nodup.filter _
  mem_iff := fun _ => List.mem_filter

theorem listsOperations (hg : Graph.ofDocument doc = .ok g) {s : Site} (hs : s ∈ known doc) :
    ListsOperations doc g s := by
  have hns : s.declare ∈ g.namespaces := by
    rw [Load.namespaces_of_ofDocument hg]
    exact List.mem_map_of_mem hs
  have hall := comesToAll hg hns
  exact
    { written := Load.forall₂_operationsWithin hg hs
      gathered := ⟨_, hall, operationsWithin_eq_of_walk hg hns hall.walk⟩ }

theorem listsServices (hg : Graph.ofDocument doc = .ok g) : ListsServices doc g := by
  obtain ⟨root, hroot, hid⟩ := (exists_namespace_iff hg).mpr ⟨_, .inl .root⟩
  have hall := comesToAll hg hroot
  rw [hid] at hall
  have hids := (coherent_of_ofDocument hg).ids_nodup
  constructor
  case written => exact Load.services_eq_inOrder hg
  case nodup =>
    rw [map_home_services]
    exact hids.sublist (List.filter_sublist.map _)
  case mem_iff =>
    intro ns hns
    rw [map_home_services, List.mem_map]
    constructor
    · rintro ⟨other, hother, hsame⟩
      obtain ⟨hother, hmarked⟩ := List.mem_filter.mp hother
      obtain rfl : other = ns := List.inj_on_of_nodup_map hids hother hns hsame
      exact hmarked
    · exact fun hmarked => ⟨ns, List.mem_filter.mpr ⟨hns, hmarked⟩, rfl⟩
  case gathered => exact ⟨_, hall, services_eq_of_walk hg hall.walk⟩

/-- **Operations and services are listed in the order of the document**, each once: for every
namespace the operations written in its tree, and the marked namespaces with theirs. -/
theorem lists_in_document_order (hg : Graph.ofDocument doc = .ok g) :
    (∀ ns ∈ g.namespaces, ∃ s ∈ known doc, s.declare = ns ∧ ListsOperations doc g s) ∧
      ListsServices doc g := by
  refine ⟨fun ns hns => ?_, listsServices hg⟩
  rw [Load.namespaces_of_ofDocument hg] at hns
  obtain ⟨s, hs, rfl⟩ := List.mem_map.mp hns
  exact ⟨s, hs, rfl, listsOperations hg hs⟩

/-- A park with a shop between its own operations and those of its zoo, and a garden next to it. -/
def park : Document :=
  { root :=
      { name := ""
        namespaces := [
          { name := "Park"
            service := some ⟨some "City park"⟩
            namespaces := [
              { name := "Zoo"
                service := some ⟨none⟩
                operations := [⟨"feed", .post, "/food", none, none, [], none, []⟩] }]
            operations := [⟨"enter", .get, "/gate", none, none, [], none, []⟩,
              ⟨"leave", .get, "/gate", none, none, [], none, []⟩]
            interfaces := [⟨"Shop", [⟨"buy", .post, "/shop", none, none, [], none, []⟩]⟩] },
          { name := "Garden"
            operations := [⟨"water", .put, "/can", none, none, [], none, []⟩] }] }
    diagnostics := [] }

theorem lists_in_document_order_park : ∃ g, Graph.ofDocument park = .ok g ∧
    (∀ ns ∈ g.namespaces, ∃ s ∈ known park, s.declare = ns ∧ ListsOperations park g s) ∧
    ListsServices park g ∧
    (g.operationsWithin .root).map (·.name) = ["enter", "leave", "buy", "feed", "water"] ∧
    g.services.map (fun s => (s.home.name, s.operations.map (·.name))) =
      [("Park", ["enter", "leave", "buy", "feed"]), ("Zoo", ["feed"])] := by
  have hg : Graph.ofDocument park = .ok _ := rfl
  obtain ⟨hoperations, hservices⟩ := lists_in_document_order hg
  exact ⟨_, hg, hoperations, hservices, by decide, by decide⟩

end Graph

end ApiEmit
