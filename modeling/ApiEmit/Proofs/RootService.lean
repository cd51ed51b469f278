/-
ApiEmit.Proofs.RootService — a program without services is one service.

A document in which no namespace is a service, and the same one with the global namespace as an
untitled service, are loaded to programs that differ in that mark only. For the first the deciding
operations are found by the scan, and for the second by the walk; both come to all operations in
their order. So marking goes the same way, and the one document that is written is the same.
-/
import ApiEmit.Proofs.Reordering
import ApiEmit.Proofs.SameDeclarations
import ApiEmit.Proofs.ServiceFiles
import ApiEmit.Proofs.Walks

namespace ApiEmit

/-! ## Documents of programs in which the same is declared -/

namespace Graph.SameDeclarations

open Reference

variable {g g' : Graph} (h : g.SameDeclarations g')
include h

theorem typeNameTo_eq (levels : Nat) : typeNameTo g levels = typeNameTo g' levels := by
  induction levels with
  | zero =>
    funext t
    rfl
  | succ levels ih =>
    funext t
    cases t <;> simp only [typeNameTo, h.declaration?, ih]

theorem typeName_eq : typeName g = typeName g' :=
  h.typeNameTo_eq maxNameDepth

theorem descriptionTo?_eq (levels : Nat) : descriptionTo? g levels = descriptionTo? g' levels := by
  induction levels with
  | zero =>
    funext t
    rfl
  | succ levels ih =>
    funext t
    simp only [descriptionTo?, h.stringIndexer?_eq, h.union?_eq, h.typeName_eq, ih]

theorem describe_eq : describe g = describe g' := by
  funext doc t
  rw [describe, describe, h.descriptionTo?_eq]

theorem settleIn?_eq (steps : Nat) : settleIn? g steps = settleIn? g' steps := by
  induction steps with
  | zero =>
    funext t
    rfl
  | succ steps ih =>
    funext t
    simp only [settleIn?, h.union?_eq, ih]

theorem settle?_eq : settle? g = settle? g' := by
  funext t
  rw [settle?, settle?, h.size, h.settleIn?_eq]

theorem exampleTo?_eq (levels : Nat) : exampleTo? g levels = exampleTo? g' levels := by
  have hscalar : scalarExample g = scalarExample g' := by
    funext id
    rw [scalarExample, scalarExample, h.scalarChain_eq]
  induction levels with
  | zero =>
    funext t
    rfl
  | succ levels ih =>
    funext t
    simp only [exampleTo?, h.settle?_eq, h.declaration?, hscalar, ih]

theorem bodyLines_eq : bodyLines g = bodyLines g' := by
  have hexample : example? g = example? g' := by
    funext t depth
    rw [example?, example?, h.exampleTo?_eq]
  have hrow : propertyRow g = propertyRow g' := by
    funext p
    rw [propertyRow, propertyRow, h.typeName_eq, h.describe_eq]
  have htable : propertyTable g = propertyTable g' := by
    funext properties
    rw [propertyTable, propertyTable, hrow]
  funext b
  rw [bodyLines, bodyLines, hexample, htable, h.properties?_eq]

theorem responseLines_eq : responseLines g = responseLines g' := by
  funext r
  rw [responseLines, responseLines, h.bodyLines_eq]

theorem fingerprint_eq : fingerprint g = fingerprint g' := by
  have hbody : bodyPrint g = bodyPrint g' := by
    funext b
    rw [bodyPrint, bodyPrint, h.typeName_eq, h.properties?_eq]
  funext r
  rw [fingerprint, fingerprint, hbody]

theorem commonErrors_eq : commonErrors g = commonErrors g' := by
  have herrors : errorsOf g = errorsOf g' := by
    funext op
    rw [errorsOf, errorsOf, h.fingerprint_eq]
  funext operations
  rw [commonErrors, commonErrors, herrors, h.responseLines_eq]

theorem operationLines_eq : operationLines g = operationLines g' := by
  have hrow : parameterRow g = parameterRow g' := by
    funext p
    rw [parameterRow, parameterRow, h.typeName_eq, h.describe_eq]
  have hparameters : parameterLines g = parameterLines g' := by
    funext parameters
    rw [parameterLines, parameterLines, hrow]
  have hrequest : requestLines g = requestLines g' := by
    funext body
    cases body with
    | none => rfl
    | some b => rw [requestLines, requestLines, h.bodyLines_eq]
  have hhoisted : isHoisted g = isHoisted g' := by
    funext common r
    rw [isHoisted, isHoisted, h.fingerprint_eq]
  have hresponses : responsesLines g = responsesLines g' := by
    funext common responses
    rw [responsesLines, responsesLines, hhoisted, h.responseLines_eq]
  funext common op
  rw [operationLines, operationLines, hparameters, hrequest, hresponses]

/-- A service whose namespace says the same about itself has the same document. -/
theorem serviceDocument_eq {s : Service}
    (hdoc : (g.namespace? s.home).bind (·.doc) = (g'.namespace? s.home).bind (·.doc))
    (hservers : (g.namespace? s.home).map (·.servers) = (g'.namespace? s.home).map (·.servers)) :
    serviceDocument g s = serviceDocument g' s := by
  have hintro : introLines g s = introLines g' s := by
    unfold introLines
    dsimp only
    rw [hdoc, hservers]
  have hgroup : groupLines g = groupLines g' := by
    funext common group
    rw [groupLines, groupLines, h.operationLines_eq]
  rw [serviceDocument, serviceDocument, serviceLines, serviceLines, hintro, hgroup,
    h.commonErrors_eq]

end Graph.SameDeclarations

namespace Document

/-- A document with its global namespace marked as a service, or not. -/
def withService (doc : Document) (service : Option Service) : Document :=
  { doc with root := { doc.root with service } }

end Document

namespace Load

variable {doc : Document} {g : Graph} (service : Option Document.Service)

/-! ## Loading does not look at services -/

theorem entries_withService {α : Type} {list : Document.Namespace → List α} {name : α → String}
    (h : list (doc.withService service).root = list doc.root) :
    entries list name (sites .root (doc.withService service).root) =
      entries list name (sites .root doc.root) := by
  rw [sites_eq, sites_eq, entries, entries, List.flatMap_cons, List.flatMap_cons, h]
  rfl

theorem operations_withService (doc : Document) :
    (sites .root (doc.withService service).root).flatMap (·.operations) =
      (sites .root doc.root).flatMap (·.operations) := by
  rw [sites_eq, sites_eq]
  rfl

theorem distinct_withService (h : doc.Distinct) : (doc.withService service).Distinct := by
  have hiff : ∀ doc : Document, doc.Distinct ↔
      ∀ s ∈ sites .root doc.root, (s.content.declared.map (·.1)).Nodup := fun doc =>
    (forall_sites_iff (P := fun s => (s.content.declared.map Prod.fst).Nodup)).symm
  rw [hiff, sites_eq, List.forall_mem_cons] at h ⊢
  exact h

/-- The table changes in the entry of the global namespace. -/
theorem table_withService (doc : Document) : table (doc.withService service) =
    { (⟨.root, doc.root⟩ : Site).declare with service := service.map fun s => ⟨s.title⟩ } ::
      Library.namespaceEntry :: (sitesBelow .root 1 doc.root.namespaces).map (·.declare) := by
  rw [table_eq]
  rfl

theorem lookup?_withService (hg : Graph.ofDocument doc = .ok g) :
    Scope.lookup? (table doc) = Scope.lookup? (table (doc.withService service)) := by
  refine Scope.lookup?_congr ?_ ?_
  · rw [table_eq, table_withService]
    have hsame : ∀ ns : Namespace, ns.DeclaresSame ns := fun ns => ⟨rfl, .refl _⟩
    exact .cons ⟨rfl, .refl _⟩ (.cons (hsame _) (List.forall₂_same.mpr fun ns _ => hsame ns))
  · rw [← namespaces_of_ofDocument hg]
    exact (Graph.coherent_of_ofDocument hg).names_nodup

/-- A document that can be loaded can be loaded whether it is a service or not, and only its
namespaces change. -/
theorem ofDocument_withService (hg : Graph.ofDocument doc = .ok g) :
    Graph.ofDocument (doc.withService service) =
      .ok { g with namespaces := table (doc.withService service) } := by
  have hnames := lookup?_withService service hg
  obtain ⟨hd, scalars, unions, models, operations, hscalars, hunions, hmodels, hoperations, rfl⟩ :=
    ofDocument_eq_ok_iff.mp hg
  have henums : enumsOf (doc.withService service) = enumsOf doc := by
    rw [enumsOf, enumsOf, entries_withService service rfl]
  have hresolve : ∀ {α : Type} {list : Document.Namespace → List α} {name : α → String}
      {resolve : Place → α → Except LoadError Declaration} {resolved},
      list (doc.withService service).root = list doc.root →
      (∀ home context, resolve ⟨table doc, home, context⟩ =
        resolve ⟨table (doc.withService service), home, context⟩) →
      resolveAll (table doc) resolve (entries list name (sites .root doc.root)) = .ok resolved →
      resolveAll (table (doc.withService service)) resolve
        (entries list name (sites .root (doc.withService service).root)) = .ok resolved := by
    intro α list name resolve resolved hlist hsame h
    rw [entries_withService service hlist]
    unfold resolveAll at h ⊢
    simpa only [hsame] using h
  refine ofDocument_eq_ok_iff.mpr ⟨distinct_withService service hd, scalars, unions, models,
    operations, hresolve rfl (scalar_congr hnames) hscalars,
    hresolve rfl (union_congr hnames) hunions, ?_, ?_, ?_⟩
  · rw [henums]
    exact hresolve rfl (model_congr hnames fun _ => rfl) hmodels
  · rw [operations_withService, ← operation_congr hnames]
    exact hoperations
  · rw [henums]
    rfl

end Load

namespace Graph

variable {doc : Document} {g g' : Graph}

/-! ## A program without services, and the same as one service -/

/-- In a loaded program whose document has no services no namespace is one. -/
theorem service_eq_none (hg : Graph.ofDocument doc = .ok g)
    (hnone : ∀ home ns around, doc.Scope home (ns :: around) → ns.service = none)
    {ns : Namespace} (hns : ns ∈ g.namespaces) : ns.service = none := by
  obtain ⟨content, around, hstands, heq⟩ := (Load.mem_namespaces_iff hg).mp hns
  have hcontent : content.service = none := by
    rcases hstands with hscope | ⟨_, hlibrary⟩
    · exact hnone _ _ _ hscope
    · obtain ⟨rfl, _⟩ := List.cons.inj hlibrary
      rfl
  rw [heq, Load.Site.declare, hcontent]
  rfl

theorem services_eq_nil (hnone : ∀ ns ∈ g.namespaces, ns.service = none) : g.services = [] := by
  refine List.filterMap_eq_nil_iff.mpr fun ns hns => ?_
  rw [hnone ns hns]
  rfl

/-- Every operation lies at the global namespace or below. -/
theorem operationsWithin_root (g : Graph) : g.operationsWithin .root = g.operations :=
  List.filter_eq_self.mpr fun op _ => op.home.isWithin_root

/-- Where no operation is reserved, none is left out. -/
theorem filter_unreserved (h : ∀ op ∈ g.operations, op.home.isReserved = false) :
    g.operations.filter (! ·.home.isReserved) = g.operations :=
  List.filter_eq_self.mpr fun op hop => by rw [h op hop]; rfl

/-- A program has the operations of its document. -/
theorem operations_ne_nil (hg : Graph.ofDocument doc = .ok g) {home : NamespaceId}
    {ns : Document.Namespace} {around : List Document.Namespace}
    (hscope : doc.Scope home (ns :: around)) {name : String} {op : Document.Operation}
    (hop : Document.HasOperation ns name op) : g.operations ≠ [] := by
  obtain ⟨_, _, _, _, operations, _, _, _, hoperations, rfl⟩ := Load.ofDocument_eq_ok_iff.mp hg
  obtain ⟨interface, _, hmem⟩ :
      ∃ interface, name = _ ∧ (home, interface, op) ∈ Load.Site.operations ⟨home, ns⟩ :=
    Load.hasOperation_iff.mp hop
  have hentry := Load.mem_operations_iff.mpr ⟨(ns, around), hscope, hmem⟩
  obtain ⟨resolved, hresolved⟩ := exists_of_mapM hoperations hentry
  exact List.ne_nil_of_mem ((mem_mapM_iff hoperations).mpr ⟨_, hentry, hresolved⟩)

/-- One program is another one, in which no namespace is a service, with the global namespace as an
untitled service. -/
structure ServesRoot (g g' : Graph) : Prop where
  unmarked : ∀ ns ∈ g.namespaces, ns.service = none
  namespaces : ∃ root rest, g.namespaces = root :: rest ∧ root.id = .root ∧
    g'.namespaces = { root with service := some ⟨none⟩ } :: rest
  declarations : g'.declarations = g.declarations
  operations : g'.operations = g.operations
  diagnostics : g'.diagnostics = g.diagnostics

namespace ServesRoot

variable (h : ServesRoot g g')
include h

theorem sameDeclarations : g.SameDeclarations g' where
  declaration? := by
    funext id
    rw [declaration?, declaration?, h.declarations]
  length := by rw [h.declarations]
  size := by rw [size, size, h.declarations]

/-- The one service is the global namespace with all operations. -/
theorem services_eq : g'.services = [⟨.root, none, g.operations⟩] := by
  obtain ⟨root, rest, hg, hroot, hg'⟩ := h.namespaces
  have hrest : rest.filterMap (fun ns => ns.service.map fun mark =>
      (⟨ns.id, mark.title, g'.operationsWithin ns.id⟩ : Service)) = [] := by
    refine List.filterMap_eq_nil_iff.mpr fun ns hns => ?_
    rw [h.unmarked ns (hg ▸ List.mem_cons_of_mem _ hns)]
    rfl
  rw [services, hg', List.filterMap_cons, hrest]
  simp only [Option.map_some, hroot, operationsWithin_root, h.operations]

/-- The services that are documented are the same. -/
theorem documentedServices_eq (hne : g.operations ≠ []) :
    Reference.documentedServices g = Reference.documentedServices g' := by
  have hempty : g.operations.isEmpty = false := by simpa using hne
  rw [Reference.documentedServices, Reference.documentedServices, h.services_eq,
    services_eq_nil h.unmarked, operationsWithin_root, hempty]
  rfl

/-- The operations that decide are the same, in the same order. -/
theorem consideredOperations_eq (hne : g.operations ≠ [])
    (hopen : ∀ op ∈ g.operations, op.home.isReserved = false) :
    g.consideredOperations = g.operations ∧ g'.consideredOperations = g.operations := by
  have hempty : g.operations.isEmpty = false := by simpa using hne
  rw [consideredOperations, consideredOperations, h.services_eq, services_eq_nil h.unmarked]
  simp only [List.flatMap_nil, List.isEmpty_nil, if_true, filter_unreserved hopen,
    List.flatMap_singleton, hempty, Bool.false_eq_true, if_false, and_self]

theorem namespace?_root : ∃ ns, g.namespace? .root = some ns ∧
    g'.namespace? .root = some { ns with service := some ⟨none⟩ } := by
  obtain ⟨root, rest, hg, hroot, hg'⟩ := h.namespaces
  refine ⟨root, ?_, ?_⟩
  · rw [namespace?, hg]
    exact List.find?_cons_of_pos (by simp [hroot])
  · rw [namespace?, hg']
    exact List.find?_cons_of_pos (by simp [hroot])

/-- The files are the same. -/
theorem files_eq (hne : g.operations ≠ []) (o : Reference.Options) :
    Reference.files g o = Reference.files g' o := by
  obtain ⟨ns, hns, hns'⟩ := h.namespace?_root
  have hservices := h.documentedServices_eq hne
  have hroot : Reference.documentedServices g' = [⟨.root, none, g.operations⟩] := by
    rw [Reference.documentedServices, h.services_eq]
    rfl
  have hdocument : Reference.serviceDocument g ⟨.root, none, g.operations⟩ =
      Reference.serviceDocument g' ⟨.root, none, g.operations⟩ := by
    refine h.sameDeclarations.serviceDocument_eq ?_ ?_
    · rw [hns, hns']
      rfl
    · rw [hns, hns']
      rfl
  rw [Reference.files, Reference.files, hasErrors, hasErrors, h.diagnostics, hservices, hroot]
  simp only [List.map_singleton, hdocument]

end ServesRoot

/-- A document without services, and the same as one service, can both be loaded or neither, and
the programs differ in that mark only. -/
theorem servesRoot_of_ofDocument
    (hnone : ∀ home ns around, doc.Scope home (ns :: around) → ns.service = none) :
    ((∃ g, Graph.ofDocument doc = .ok g) ↔
      ∃ g', Graph.ofDocument (doc.withService (some ⟨none⟩)) = .ok g') ∧
    ∀ g g', Graph.ofDocument doc = .ok g →
      Graph.ofDocument (doc.withService (some ⟨none⟩)) = .ok g' → ServesRoot g g' := by
  refine ⟨⟨?_, ?_⟩, fun g g' hg hg' => ?_⟩
  · rintro ⟨g, hg⟩
    exact ⟨_, Load.ofDocument_withService _ hg⟩
  · rintro ⟨g', hg'⟩
    -- the mark that was there is put back
    have hback := Load.ofDocument_withService doc.root.service hg'
    exact ⟨_, hback⟩
  · obtain rfl := Except.ok.inj ((Load.ofDocument_withService _ hg).symm.trans hg')
    exact {
      unmarked := fun ns hns => service_eq_none hg hnone hns
      namespaces := by
        refine ⟨_, _, (Load.namespaces_of_ofDocument hg).trans (Load.table_eq doc), rfl, ?_⟩
        exact Load.table_withService _ doc
      declarations := rfl
      operations := rfl
      diagnostics := rfl }

/-- What is the same for a program without services and for the same program as one service. -/
structure AgreesWithService (g g' : Graph) : Prop where
  /-- The operations that decide about usage are gathered by the scan of the one and by the walk of
  the other, the same in the same order. -/
  gathered : ∃ seen scanned walked,
    g.TreeScan [] [.root] seen scanned ∧ g'.StackWalk [] [.root] walked ∧
      g.consideredOperations = scanned.flatMap g.operationsIn ∧
      g'.consideredOperations = walked.flatMap g'.operationsIn ∧
      g.consideredOperations = g'.consideredOperations
  /-- The usage map is the same, and so is the order in which it was filled. -/
  classify : g.classify = g'.classify
  documented : Reference.documentedServices g = Reference.documentedServices g'
  files : ∀ o, Reference.files g o = Reference.files g' o

/-- **A program without services is one untitled service.** Where no namespace is a service, some
operation is declared, and nothing is written in the reserved part of the tree, a document can be
loaded exactly if it can be with the global namespace as an untitled service. The programs then have
the same usage map in the same order, and the same reference documents under all options. -/
theorem agreesWithService_of_ofDocument
    (hnone : ∀ home ns around, doc.Scope home (ns :: around) → ns.service = none)
    (hop : ∃ home ns around name op, doc.Scope home (ns :: around) ∧
      Document.HasOperation ns name op)
    (hopen : ∀ home scope, doc.Scope home scope → home.isReserved = false) :
    ((∃ g, Graph.ofDocument doc = .ok g) ↔
      ∃ g', Graph.ofDocument (doc.withService (some ⟨none⟩)) = .ok g') ∧
    ∀ g g', Graph.ofDocument doc = .ok g →
      Graph.ofDocument (doc.withService (some ⟨none⟩)) = .ok g' → AgreesWithService g g' := by
  obtain ⟨hloads, hserves⟩ := servesRoot_of_ofDocument hnone
  refine ⟨hloads, fun g g' hg hg' => ?_⟩
  have h := hserves g g' hg hg'
  have hne : g.operations ≠ [] := by
    obtain ⟨home, ns, around, name, op, hscope, hop⟩ := hop
    exact operations_ne_nil hg hscope hop
  have hhomes : ∀ op ∈ g.operations, op.home.isReserved = false := by
    intro op hmem
    obtain ⟨ns, around, hscope, _⟩ := Load.exists_of_mem_operations hg hmem
    exact hopen op.home _ hscope
  obtain ⟨hconsidered, hconsidered'⟩ := h.consideredOperations_eq hne hhomes
  obtain ⟨seen, hscan⟩ := Load.exists_treeScan hg
  exact {
    gathered := by
      refine ⟨seen, _, _, hscan, stackWalk_root hg', ?_, ?_, hconsidered.trans hconsidered'.symm⟩
      · rw [hconsidered, ← operations_eq_of_scan hg hscan, filter_unreserved hhomes]
      · rw [hconsidered', ← h.operations]
        exact Load.operations_eq hg'
    classify := h.sameDeclarations.classify_eq (hconsidered.trans hconsidered'.symm)
    documented := h.documentedServices_eq hne
    files := h.files_eq hne }

/-- Books to find, and further in a cart to put them in. -/
def bookshop : Document :=
  { root :=
      { name := ""
        namespaces := [
          { name := "Books"
            models := [⟨"Book", none, none, none, [], {}⟩]
            operations := [⟨"find", .get, "/books", none, none, [], none,
              [⟨.code 200, none, [⟨.ref "Book", []⟩]⟩]⟩]
            namespaces := [
              { name := "Orders"
                interfaces := [⟨"Cart", [⟨"add", .post, "/cart", none, none, [],
                  some ⟨.ref "Book", []⟩, []⟩]⟩] }] }] }
    diagnostics := [] }

theorem agreesWithService_bookshop : ∃ g g', Graph.ofDocument bookshop = .ok g ∧
    Graph.ofDocument (bookshop.withService (some ⟨none⟩)) = .ok g' ∧ AgreesWithService g g' ∧
    g'.services.length = 1 ∧ g.classify.byName = [("Books.Book", .roundtrip)] := by
  have hg : Graph.ofDocument bookshop = .ok _ := rfl
  have hg' : Graph.ofDocument (bookshop.withService (some ⟨none⟩)) = .ok _ := rfl
  have hnone := Load.forall_sites_iff.mp
    (by decide : ∀ s ∈ Load.sites .root bookshop.root, s.content.service = none)
  have hopen := Load.forall_sites_iff.mp
    (by decide : ∀ s ∈ Load.sites .root bookshop.root, s.id.isReserved = false)
  have hop : ∃ home ns around name op, bookshop.Scope home (ns :: around) ∧
      Document.HasOperation ns name op := by
    have hscope : bookshop.Scope _ [_, bookshop.root] := .child (i := 0) .root rfl
    exact ⟨_, _, _, _, _, hscope, .own (List.mem_singleton.mpr rfl)⟩
  obtain ⟨_, hagrees⟩ := agreesWithService_of_ofDocument hnone hop fun home scope hscope => by
    obtain ⟨ns, around, rfl⟩ := Load.Stands.exists_cons (.inl hscope)
    exact hopen home ns around hscope
  exact ⟨_, _, hg, hg', hagrees _ _ hg hg', by decide, by decide⟩

end Graph

end ApiEmit
