/-
ApiEmit.Proofs.Walks — two ways to go through the namespaces of a program.

One goes down with a stack, the other by recursion, which leaves out the reserved part of the tree;
both keep the namespaces that they have been to. They are given by rules here (`StackWalk`,
`TreeScan`), without any bound on their steps. In a loaded program the namespaces make up a tree, so
both come to each namespace once, in the order in which the namespaces are listed: the walk to all
at a place and below it, and the scan to all that are not reserved.
-/
import ApiEmit.Proofs.WellFormed

namespace ApiEmit

namespace Graph

/-! ## The rules -/

/-- The walk with a stack, the top first. What is on top is taken off. If the walk has been there it
goes on; else it visits the namespace and pushes its children, the last of them first. -/
inductive StackWalk (g : Graph) :
    (seen stack found : List NamespaceId) → Prop
  | done {seen : List NamespaceId} : StackWalk g seen [] []
  | again {seen stack found : List NamespaceId} {id : NamespaceId} (h : id ∈ seen)
      (rest : StackWalk g seen stack found) : StackWalk g seen (id :: stack) found
  | visit {seen stack found : List NamespaceId} {id : NamespaceId} (h : id ∉ seen)
      (rest : StackWalk g (id :: seen)
        ((g.childrenOf id).reverse.foldl (fun stack child => child :: stack) stack) found) :
      StackWalk g seen (id :: stack) (id :: found)

/-- The recursive scan of some namespaces one after the other: those seen before and after it, and
those that it goes into. A reserved namespace counts as seen and is not gone into; any other is
visited, and its children are scanned before the rest. -/
inductive TreeScan (g : Graph) :
    (seen ids seen' found : List NamespaceId) → Prop
  | done {seen : List NamespaceId} : TreeScan g seen [] seen []
  | again {seen ids seen' found : List NamespaceId} {id : NamespaceId} (h : id ∈ seen)
      (rest : TreeScan g seen ids seen' found) : TreeScan g seen (id :: ids) seen' found
  | reserved {seen ids seen' found : List NamespaceId} {id : NamespaceId} (h : id ∉ seen)
      (hr : id.isReserved = true) (rest : TreeScan g (id :: seen) ids seen' found) :
      TreeScan g seen (id :: ids) seen' found
  | enter {seen ids mid seen' inner found : List NamespaceId} {id : NamespaceId} (h : id ∉ seen)
      (hr : id.isReserved = false) (below : TreeScan g (id :: seen) (g.childrenOf id) mid inner)
      (rest : TreeScan g mid ids seen' found) :
      TreeScan g seen (id :: ids) seen' (id :: inner ++ found)

variable {g : Graph}

/-- Pushing the last first leaves the children on the stack in their order. -/
theorem push_children (children stack : List NamespaceId) :
    children.reverse.foldl (fun stack child => child :: stack) stack = children ++ stack := by
  rw [List.foldl_reverse]
  induction children with
  | nil => rfl
  | cons child rest ih => rw [List.foldr_cons, ih, List.cons_append]

/-- The walk finds one thing only. -/
theorem StackWalk.unique {seen stack found found' : List NamespaceId}
    (h : g.StackWalk seen stack found) (h' : g.StackWalk seen stack found') : found = found' := by
  induction h generalizing found' with
  | done =>
    cases h'
    rfl
  | again hseen _ ih =>
    cases h' with
    | again _ rest => exact ih rest
    | visit hnew _ => exact absurd hseen hnew
  | visit hnew _ ih =>
    cases h' with
    | again hseen _ => exact absurd hseen hnew
    | visit _ rest => rw [ih rest]

/-- The scan finds one thing only. -/
theorem TreeScan.unique {seen ids mid mid' found found' : List NamespaceId}
    (h : g.TreeScan seen ids mid found) (h' : g.TreeScan seen ids mid' found') :
    mid = mid' ∧ found = found' := by
  induction h generalizing mid' found' with
  | done =>
    cases h'
    exact ⟨rfl, rfl⟩
  | again hseen _ ih =>
    cases h' with
    | again _ rest => exact ih rest
    | reserved hnew _ _ => exact absurd hseen hnew
    | enter hnew _ _ _ => exact absurd hseen hnew
  | reserved hnew hr _ ih =>
    cases h' with
    | again hseen _ => exact absurd hseen hnew
    | reserved _ _ rest => exact ih rest
    | enter _ hopen _ _ => cases hr.symm.trans hopen
  | enter hnew hopen _ _ ihBelow ihRest =>
    cases h' with
    | again hseen _ => exact absurd hseen hnew
    | reserved _ hr _ => cases hr.symm.trans hopen
    | enter _ _ below rest =>
      obtain ⟨rfl, rfl⟩ := ihBelow below
      obtain ⟨rfl, rfl⟩ := ihRest rest
      exact ⟨rfl, rfl⟩

end Graph

namespace Load

variable {g : Graph}

/-! ## Down the tree of a document -/

/-- The children that a program knows for a site are those written there. -/
def Branches (g : Graph) (s : Site) : Prop :=
  g.childrenOf s.id = (childSites s.id 1 s.content.namespaces).map (·.id)

/-- From a site the walk goes through its tree before it goes on with the stack. -/
theorem stackWalk_sites :
    (∀ id ns, (∀ s ∈ sites id ns, Branches g s) → ∀ seen stack found,
      (∀ s ∈ sites id ns, s.id ∉ seen) →
      g.StackWalk (((sites id ns).map (·.id)).reverse ++ seen) stack found →
      g.StackWalk seen (id :: stack) ((sites id ns).map (·.id) ++ found)) ∧
    ∀ id position rest, (∀ s ∈ sitesBelow id position rest, Branches g s) → ∀ seen stack found,
      (∀ s ∈ sitesBelow id position rest, s.id ∉ seen) →
      g.StackWalk (((sitesBelow id position rest).map (·.id)).reverse ++ seen) stack found →
      g.StackWalk seen ((childSites id position rest).map (·.id) ++ stack)
        ((sitesBelow id position rest).map (·.id) ++ found) := by
  apply sites_induction
  · intro id ns ih hbranches seen stack found hnew hrest
    rw [sites_eq] at hbranches hnew hrest ⊢
    have hhere : g.childrenOf id = (childSites id 1 ns.namespaces).map (·.id) :=
      hbranches _ List.mem_cons_self
    refine .visit (hnew _ List.mem_cons_self) ?_
    rw [Graph.push_children, hhere]
    refine ih (fun s hs => hbranches s (List.mem_cons_of_mem _ hs)) _ _ _ (fun s hs hseen => ?_) ?_
    · rcases List.mem_cons.mp hseen with heq | hseen
      · exact ne_of_mem_sitesBelow hs heq
      · exact hnew s (List.mem_cons_of_mem _ hs) hseen
    · simpa using hrest
  · intro id position _ seen stack found _ hrest
    exact hrest
  · intro id position ns rest ihFirst ihRest hbranches seen stack found hnew hrest
    rw [sitesBelow] at hbranches hnew hrest ⊢
    rw [List.map_append, List.append_assoc]
    refine ihFirst (fun s hs => hbranches s (List.mem_append_left _ hs)) _ _ _
      (fun s hs => hnew s (List.mem_append_left _ hs)) ?_
    refine ihRest (fun s hs => hbranches s (List.mem_append_right _ hs)) _ _ _
      (fun s hs hseen => ?_) ?_
    · rcases List.mem_append.mp hseen with hearlier | hseen
      · exact not_mem_ids_of_mem_sitesBelow hs (List.mem_reverse.mp hearlier)
      · exact hnew s (List.mem_append_right _ hs) hseen
    · simpa using hrest

variable {doc : Document}

/-- All namespaces of a program below the global one, the built-in ones first. -/
def belowRoot (doc : Document) : List Site :=
  sitesBelow .root 0 (Document.library :: doc.root.namespaces)

theorem known_eq (doc : Document) : known doc = ⟨.root, doc.root⟩ :: belowRoot doc :=
  rfl

theorem ne_root_of_mem_belowRoot {s : Site} (hs : s ∈ belowRoot doc) :
    s.id ∉ [NamespaceId.root] :=
  fun hroot => ne_of_mem_sitesBelow hs (List.mem_singleton.mp hroot)

/-- The children of the global namespace are the one of the built-in scalars and those written. -/
theorem childrenOf_root (hg : Graph.ofDocument doc = .ok g) : g.childrenOf .root =
    (childSites .root 0 (Document.library :: doc.root.namespaces)).map (·.id) := by
  rw [childrenOf_eq hg, known_eq, sitesIn_cons_of_suffix (List.suffix_refl _), belowRoot,
    sitesIn_sitesBelow]

theorem branches_of_ofDocument (hg : Graph.ofDocument doc = .ok g) {s : Site}
    (hs : s ∈ belowRoot doc) : Branches g s := by
  have hroot : NamespaceId.root.segments <:+ s.id.segments := List.nil_suffix ..
  rw [Branches, childrenOf_eq hg, known_eq, sitesIn_cons_of_suffix hroot, belowRoot,
    filter_parent.2 _ _ _ s hs]

/-- **The walk from a namespace** comes to all at it and below it, in the order of the list. -/
theorem stackWalk_within (hg : Graph.ofDocument doc = .ok g) {ns : Namespace}
    (hns : ns ∈ g.namespaces) :
    g.StackWalk [] [ns.id] ((g.namespaces.map (·.id)).filter (·.isWithin ns.id)) := by
  have hwithin : (g.namespaces.map (·.id)).filter (·.isWithin ns.id) =
      (sitesWithin ns.id (known doc)).map (·.id) := by
    rw [map_id_namespaces hg, List.filter_map]
    rfl
  have hsite : ∃ s ∈ known doc, s.id = ns.id := by
    rw [namespaces_of_ofDocument hg] at hns
    obtain ⟨s, hs, rfl⟩ := List.mem_map.mp hns
    exact ⟨s, hs, rfl⟩
  obtain ⟨s, hs, hid⟩ := hsite
  rw [hwithin, ← hid]
  rw [known_eq] at hs ⊢
  rcases List.mem_cons.mp hs with rfl | hs
  · -- the global namespace has all others below it
    have hall : sitesWithin .root (⟨.root, doc.root⟩ :: belowRoot doc) =
        ⟨.root, doc.root⟩ :: belowRoot doc :=
      List.filter_eq_self.mpr fun s _ => s.id.isWithin_root
    rw [hall]
    refine .visit List.not_mem_nil ?_
    rw [Graph.push_children, childrenOf_root hg, ← List.append_nil ((belowRoot doc).map _)]
    exact stackWalk_sites.2 _ _ _ (fun s hs => branches_of_ofDocument hg hs) _ _ _
      (fun s hs => ne_root_of_mem_belowRoot hs) .done
  · have hsites : sitesWithin s.id (⟨.root, doc.root⟩ :: belowRoot doc) = sites s.id s.content := by
      have houtside : ¬ NamespaceId.root.isWithin s.id = true := fun hin => by
        have hle := (List.isSuffixOf_iff_suffix.mp hin).length_le
        exact absurd (length_lt_of_mem_sitesBelow hs) (Nat.not_lt.mpr hle)
      rw [sitesWithin_cons, if_neg houtside, belowRoot, filter_within.2 _ _ _ s hs]
    have hbelow : ∀ t ∈ sites s.id s.content, t ∈ belowRoot doc := by
      intro t ht
      rw [← filter_within.2 _ _ _ s hs] at ht
      exact List.mem_of_mem_filter ht
    rw [hsites, ← List.append_nil ((sites ..).map _)]
    exact stackWalk_sites.1 _ _ (fun t ht => branches_of_ofDocument hg (hbelow t ht)) _ _ _
      (fun _ _ => List.not_mem_nil) .done

/-! ## What the scan leaves out -/

/-- What lies below a reserved namespace is reserved. -/
theorem isReserved_child {id : NamespaceId} (h : id.isReserved = true) (position : Nat)
    (name : String) : (id.child position name).isReserved = true := by
  unfold NamespaceId.isReserved at h ⊢
  have hpath : ∃ rest, (id.child position name).path = id.path ++ rest := by
    refine ⟨[name].filter (· ≠ ""), ?_⟩
    simp [NamespaceId.path, NamespaceId.child]
  obtain ⟨rest, hrest⟩ := hpath
  rw [beq_iff_eq] at h ⊢
  rw [hrest, List.head?_append, h, Option.some_or]

theorem isReserved_of_mem :
    (∀ id ns, id.isReserved = true → ∀ s ∈ sites id ns, s.id.isReserved = true) ∧
    ∀ id position rest, id.isReserved = true →
      ∀ s ∈ sitesBelow id position rest, s.id.isReserved = true := by
  apply sites_induction
  · intro id ns ih h s hs
    rw [sites_eq, List.mem_cons] at hs
    rcases hs with rfl | hs
    · exact h
    · exact ih h s hs
  · intro id position _ s hs
    cases hs
  · intro id position ns rest ihFirst ihRest h s hs
    rw [sitesBelow, List.mem_append] at hs
    rcases hs with hs | hs
    · exact ihFirst (isReserved_child h position ns.name) s hs
    · exact ihRest h s hs

/-- The places of some sites that are not reserved. -/
def openIds (all : List Site) : List NamespaceId :=
  (all.map (·.id)).filter (! ·.isReserved)

theorem openIds_cons {s : Site} (h : s.id.isReserved = false) (rest : List Site) :
    openIds (s :: rest) = s.id :: openIds rest := by
  simp [openIds, h]

theorem openIds_append (all all' : List Site) :
    openIds (all ++ all') = openIds all ++ openIds all' := by
  rw [openIds, List.map_append, List.filter_append, ← openIds, ← openIds]

/-- The scan goes through the tree of a site, but for what is reserved there, before it goes on. It
has then seen no more than the places of the tree besides what it had seen before. -/
theorem treeScan_sites :
    (∀ id ns, (∀ s ∈ sites id ns, Branches g s) → ∀ seen, (∀ s ∈ sites id ns, s.id ∉ seen) →
      ∃ mid, (∀ place ∈ mid, place ∈ seen ∨ place ∈ (sites id ns).map (·.id)) ∧
        ∀ ids seen' found, g.TreeScan mid ids seen' found →
          g.TreeScan seen (id :: ids) seen' (openIds (sites id ns) ++ found)) ∧
    ∀ id position rest, (∀ s ∈ sitesBelow id position rest, Branches g s) →
      ∀ seen, (∀ s ∈ sitesBelow id position rest, s.id ∉ seen) →
      ∃ mid, (∀ place ∈ mid, place ∈ seen ∨
          place ∈ (sitesBelow id position rest).map (·.id)) ∧
        ∀ ids seen' found, g.TreeScan mid ids seen' found →
          g.TreeScan seen ((childSites id position rest).map (·.id) ++ ids) seen'
            (openIds (sitesBelow id position rest) ++ found) := by
  apply sites_induction
  · intro id ns ih hbranches seen hnew
    have hhere : id ∉ seen := hnew ⟨id, ns⟩ (by rw [sites_eq]; exact List.mem_cons_self)
    cases hr : id.isReserved with
    | true =>
      refine ⟨id :: seen, fun place hplace => ?_, fun ids seen' found hrest => ?_⟩
      · rcases List.mem_cons.mp hplace with rfl | hplace
        · exact .inr (by rw [sites_eq]; exact List.mem_cons_self)
        · exact .inl hplace
      · have hnone : openIds (sites id ns) = [] := by
          refine List.filter_eq_nil_iff.mpr fun place hplace => ?_
          obtain ⟨s, hs, rfl⟩ := List.mem_map.mp hplace
          simp [isReserved_of_mem.1 id ns hr s hs]
        rw [hnone, List.nil_append]
        exact .reserved hhere hr hrest
    | false =>
      rw [sites_eq] at hbranches hnew ⊢
      obtain ⟨mid, hmid, hscan⟩ := ih (fun s hs => hbranches s (List.mem_cons_of_mem _ hs))
        (id :: seen) fun s hs hseen => by
          rcases List.mem_cons.mp hseen with heq | hseen
          · exact ne_of_mem_sitesBelow hs heq
          · exact hnew s (List.mem_cons_of_mem _ hs) hseen
      have hbelow := hscan [] mid [] .done
      rw [List.append_nil, List.append_nil, ← hbranches _ List.mem_cons_self] at hbelow
      refine ⟨mid, fun place hplace => ?_, fun ids seen' found hrest => ?_⟩
      · rcases hmid place hplace with hseen | hin
        · exact (List.mem_cons.mp hseen).elim (fun heq => .inr (heq ▸ List.mem_cons_self)) .inl
        · exact .inr (List.mem_cons_of_mem _ hin)
      · rw [openIds_cons hr]
        exact .enter hhere hr hbelow hrest
  · intro id position _ seen _
    exact ⟨seen, fun _ => .inl, fun ids seen' found hrest => hrest⟩
  · intro id position ns rest ihFirst ihRest hbranches seen hnew
    rw [sitesBelow] at hbranches hnew ⊢
    obtain ⟨mid, hmid, hfirst⟩ := ihFirst (fun s hs => hbranches s (List.mem_append_left _ hs))
      seen fun s hs => hnew s (List.mem_append_left _ hs)
    obtain ⟨mid', hmid', hrest⟩ := ihRest (fun s hs => hbranches s (List.mem_append_right _ hs))
      mid fun s hs hseen => by
        rcases hmid s.id hseen with hseen | hearlier
        · exact hnew s (List.mem_append_right _ hs) hseen
        · exact not_mem_ids_of_mem_sitesBelow hs hearlier
    refine ⟨mid', fun place hplace => ?_, fun ids seen' found h => ?_⟩
    · rw [List.map_append, List.mem_append]
      rcases hmid' place hplace with hplace | hplace
      · exact (hmid place hplace).imp_right .inl
      · exact .inr (.inr hplace)
    · rw [openIds_append, List.append_assoc]
      exact hfirst _ _ _ (hrest ids seen' found h)

/-- **The scan from the global namespace** goes into all that are not reserved, in the order of the
list. -/
theorem exists_treeScan (hg : Graph.ofDocument doc = .ok g) : ∃ seen,
    g.TreeScan [] [.root] seen ((g.namespaces.map (·.id)).filter (! ·.isReserved)) := by
  obtain ⟨mid, _, hscan⟩ := treeScan_sites.2 NamespaceId.root 0
    (Document.library :: doc.root.namespaces) (fun s hs => branches_of_ofDocument hg hs) [.root]
    fun s hs => ne_root_of_mem_belowRoot hs
  have hbelow := hscan [] mid [] .done
  rw [List.append_nil, List.append_nil, ← childrenOf_root hg] at hbelow
  have hroot : NamespaceId.root.isReserved = false := by decide
  rw [map_id_namespaces hg, ← openIds, known_eq, openIds_cons hroot,
    ← List.append_nil (openIds _)]
  exact ⟨mid, .enter List.not_mem_nil hroot hbelow .done⟩

/-! ## The operations of a program, namespace by namespace -/

theorem map_home_operations (hg : Graph.ofDocument doc = .ok g) : g.operations.map (·.home) =
    (known doc).flatMap fun s => List.replicate s.operations.length s.id := by
  obtain ⟨_, _, _, _, operations, _, _, _, hoperations, rfl⟩ := ofDocument_eq_ok_iff.mp hg
  have hkey : ∀ {entry : NamespaceId × Option String × Document.Operation} {op : Operation},
      operation (table doc) entry.1 entry.2.1 entry.2.2 = .ok op → op.home = entry.1 :=
    home_of_operation
  have hhomes := map_eq_of_mapM hkey hoperations
  have hlibrary : (⟨.library, Document.library⟩ : Site).operations = [] := rfl
  have hsite : ∀ s : Site, s.operations.map (·.1) = List.replicate s.operations.length s.id := by
    intro s
    rw [List.eq_replicate_iff, List.length_map]
    refine ⟨rfl, fun home hhome => ?_⟩
    obtain ⟨entry, hentry, rfl⟩ := List.mem_map.mp hhome
    exact home_of_mem_operations hentry
  rw [hhomes, List.map_flatMap, sites_eq, known]
  simp only [hsite, List.flatMap_cons, hlibrary, List.length_nil, List.replicate_zero,
    List.nil_append]

/-- The operations stand in the order of their namespaces. -/
theorem operations_eq (hg : Graph.ofDocument doc = .ok g) :
    g.operations = (g.namespaces.map (·.id)).flatMap g.operationsIn := by
  rw [map_id_namespaces hg]
  exact Keyed.eq_flatMap_filter (known_ids_nodup doc) (map_home_operations hg)

/-- The operations of some namespaces are, in their order, those that each of them has. -/
theorem filter_operations (hg : Graph.ofDocument doc = .ok g) (p : NamespaceId → Bool) :
    g.operations.filter (fun op => p op.home) =
      ((g.namespaces.map (·.id)).filter p).flatMap g.operationsIn :=
  Keyed.filter_eq_flatMap_filter (operations_eq hg) p

end Load

namespace Graph

variable {doc : Document} {found seen : List NamespaceId}

/-- What the walk from a namespace gathers are the operations of the namespace and of all below. -/
theorem operationsWithin_eq_of_walk (hg : Graph.ofDocument doc = .ok g) {ns : Namespace}
    (hns : ns ∈ g.namespaces) (h : g.StackWalk [] [ns.id] found) :
    g.operationsWithin ns.id = found.flatMap g.operationsIn := by
  rw [h.unique (Load.stackWalk_within hg hns)]
  exact Load.filter_operations hg (·.isWithin ns.id)

/-- The global namespace is one of those listed, and the walk from there comes to all. -/
theorem stackWalk_root (hg : Graph.ofDocument doc = .ok g) :
    g.StackWalk [] [.root] (g.namespaces.map (·.id)) := by
  obtain ⟨root, hroot, hid⟩ := (exists_namespace_iff hg).mpr ⟨_, .inl .root⟩
  have hwalk := Load.stackWalk_within hg hroot
  have hall : (g.namespaces.map (·.id)).filter (·.isWithin root.id) = g.namespaces.map (·.id) := by
    rw [hid]
    exact List.filter_eq_self.mpr fun id _ => id.isWithin_root
  rwa [hall, hid] at hwalk

/-- **The services are those that the walk comes to**, each with the operations that the walk from
there gathers. -/
theorem services_eq_of_walk (hg : Graph.ofDocument doc = .ok g)
    (h : g.StackWalk [] [.root] found) :
    g.services = found.filterMap fun id => (g.namespace? id).bind fun ns =>
      ns.service.map fun mark => ⟨id, mark.title, g.operationsWithin id⟩ := by
  rw [h.unique (stackWalk_root hg), services, List.filterMap_map]
  refine List.filterMap_congr fun ns hns => ?_
  have hfound : g.namespace? ns.id = some ns :=
    Keyed.find?_key_eq_some (coherent_of_ofDocument hg).ids_nodup hns
  rw [Function.comp_apply, hfound, Option.bind_some]

/-- **What the scan gathers** are the operations outside the reserved part of the tree. -/
theorem operations_eq_of_scan (hg : Graph.ofDocument doc = .ok g)
    (h : g.TreeScan [] [.root] seen found) :
    g.operations.filter (! ·.home.isReserved) = found.flatMap g.operationsIn := by
  obtain ⟨_, hscan⟩ := Load.exists_treeScan hg
  rw [(h.unique hscan).2]
  exact Load.filter_operations hg (! ·.isReserved)

end Graph

end ApiEmit
