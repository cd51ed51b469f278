/-
ApiEmit.Proofs.ServiceFiles — one file for each service.

A file is named by the path of the namespace that it is about. Where neighbouring namespaces have
different names, none of them empty and none with a dot or a slash, a path leads to one namespace
and its name can be taken apart again. The global namespace has no path and goes by
the name `api`, which a namespace in it may have too: only then does one file take the place of
another.
-/
import ApiEmit.Proofs.Paths
import ApiEmit.Proofs.WellFormed
import ApiEmit.Reference.Emission

namespace ApiEmit

/-! ## Paths -/

namespace Document

variable {doc : Document}

/-- The namespaces in one namespace have different names, none of them empty, and without dots and
slashes. -/
structure SeparateNames (doc : Document) : Prop where
  distinct : ∀ id ns around, doc.Scope id (ns :: around) → (ns.namespaces.map (·.name)).Nodup
  plain : ∀ id ns around, doc.Scope id (ns :: around) → ∀ c ∈ ns.namespaces,
    c.name ≠ "" ∧ '.' ∉ c.name.toList ∧ '/' ∉ c.name.toList

theorem separateNames_iff : doc.SeparateNames ↔ ∀ s ∈ Load.sites .root doc.root,
    (s.content.namespaces.map (·.name)).Nodup ∧ ∀ c ∈ s.content.namespaces,
      c.name ≠ "" ∧ '.' ∉ c.name.toList ∧ '/' ∉ c.name.toList := by
  rw [Load.forall_sites_iff]
  constructor
  · exact fun h id ns around hs => ⟨h.distinct id ns around hs, h.plain id ns around hs⟩
  · exact fun h => ⟨fun id ns around hs => (h id ns around hs).1,
      fun id ns around hs => (h id ns around hs).2⟩

instance (doc : Document) : Decidable doc.SeparateNames :=
  decidable_of_iff _ separateNames_iff.symm

end Document

namespace Document.SeparateNames

variable {doc : Document} {id id' : NamespaceId} {scope scope' : List Document.Namespace}

theorem namedApart (h : doc.SeparateNames) : doc.NamedApart :=
  ⟨h.distinct, fun id ns around hs c hc => (h.plain id ns around hs c hc).1⟩

/-- The steps of a path are names of namespaces. -/
theorem plain_of_mem_path (h : doc.SeparateNames) (hs : doc.Scope id scope) {name : String}
    (hname : name ∈ id.path) : name ≠ "" ∧ '.' ∉ name.toList ∧ '/' ∉ name.toList := by
  obtain ⟨hne, outer, ns, around, hscope, c, hc, rfl⟩ := exists_of_mem_path hs hname
  exact h.plain outer ns around hscope c hc

/-- The steps of a path can be read back from a dotted name. -/
theorem isPart_of_mem_path (h : doc.SeparateNames) (hs : doc.Scope id scope) :
    ∀ name ∈ id.path, Text.IsPart '.' name := by
  intro name hname
  obtain ⟨hne, hdot, _⟩ := h.plain_of_mem_path hs hname
  exact ⟨hne, hdot⟩

theorem fullName_inj (h : doc.SeparateNames) (hs : doc.Scope id scope)
    (hs' : doc.Scope id' scope') (hname : id.fullName = id'.fullName) : id = id' := by
  rw [NamespaceId.fullName_eq_join, NamespaceId.fullName_eq_join] at hname
  have hpath := Text.join_inj (h.isPart_of_mem_path hs) (h.isPart_of_mem_path hs') hname
  exact (h.namedApart.path_inj hs hs' hpath).1

theorem fullName_eq_empty_iff (h : doc.SeparateNames) (hs : doc.Scope id scope) :
    id.fullName = "" ↔ id = .root := by
  have hne : ∀ name ∈ id.path, name ≠ "" := fun _ => NamespaceId.ne_empty_of_mem_path
  rw [NamespaceId.fullName_eq_join, Text.join_eq_empty_iff hne, h.namedApart.path_eq_nil_iff hs]

theorem not_slash_mem_fullName (h : doc.SeparateNames) (hs : doc.Scope id scope) :
    '/' ∉ id.fullName.toList := by
  rw [NamespaceId.fullName_eq_join]
  refine Text.not_mem_join (by decide) fun name hname => ?_
  obtain ⟨_, _, hslash⟩ := h.plain_of_mem_path hs hname
  exact hslash

end Document.SeparateNames

namespace Reference

variable {doc : Document} {g : Graph} {s s' : Service}

/-! ## The file of a service -/

/-- Without slashes a name gives a file of that name, with the ending of the default template. -/
theorem outputFile_default {name : String} (hslash : '/' ∉ name.toList) (multiple : Bool) :
    outputFile ({} : Options).outputFile name multiple = name ++ ".md" := by
  have hmultiple : ∀ text, Text.substitute multiplePlaceholder text "\x7bservice-name\x7d.md" =
      "\x7bservice-name\x7d.md" := fun _ => rfl
  have hname : Text.substitute servicePlaceholder name "\x7bservice-name\x7d.md" =
      name ++ ".md" := by
    have hchars : Text.substituteFrom servicePlaceholder.toList name.toList 0
        "\x7bservice-name\x7d.md".toList = name.toList ++ ".md".toList := rfl
    rw [Text.substitute, hchars, String.ofList_append, String.ofList_toList, String.ofList_toList]
  have hnone : '/' ∉ (name ++ ".md").toList := by
    rw [String.toList_append, List.mem_append, not_or]
    exact ⟨hslash, by decide⟩
  have hkept : [name ++ ".md"].filter (· ≠ "") = [name ++ ".md"] := by simp
  unfold outputFile
  dsimp only
  rw [hmultiple, hname, Text.split_of_not_mem hnone, hkept]
  exact String.intercalate_singleton

/-- The file of a service under the default template. -/
def fileOf (g : Graph) (s : Service) : String × String :=
  (serviceName s ++ ".md", serviceDocument g s)

/-- A documented service is the global namespace or a place of the document. -/
theorem exists_scope_of_documented (hg : Graph.ofDocument doc = .ok g)
    (hs : s ∈ documentedServices g) : ∃ ns around, doc.Scope s.home (ns :: around) := by
  unfold documentedServices at hs
  split at hs
  · obtain ⟨ns, hns, hmark⟩ := List.mem_filterMap.mp hs
    obtain ⟨mark, hservice, rfl⟩ := Option.map_eq_some_iff.mp hmark
    obtain ⟨content, around, hstands, heq⟩ := (Load.mem_namespaces_iff hg).mp hns
    rcases hstands with hscope | ⟨_, hlibrary⟩
    · exact ⟨_, _, hscope⟩
    · -- the built-in scalars are no service
      obtain ⟨rfl, rfl⟩ := List.cons.inj hlibrary
      rw [heq] at hservice
      cases hservice
  · split at hs
    · cases hs
    · obtain rfl := List.mem_singleton.mp hs
      exact ⟨_, _, .root⟩

theorem homes_sublist_of_services (g : Graph) :
    (g.services.map (·.home)).Sublist (g.namespaces.map (·.id)) := by
  rw [Graph.map_home_services]
  exact List.filter_sublist.map _

/-- The global namespace comes first. -/
theorem exists_ids_eq (hg : Graph.ofDocument doc = .ok g) :
    ∃ others, g.namespaces.map (·.id) = .root :: others := by
  rw [Load.namespaces_of_ofDocument hg, Load.table_eq]
  exact ⟨_, rfl⟩

/-- Services stand in the order of their namespaces. -/
theorem homes_sublist (hg : Graph.ofDocument doc = .ok g) :
    ((documentedServices g).map (·.home)).Sublist (g.namespaces.map (·.id)) := by
  unfold documentedServices
  split
  · exact homes_sublist_of_services g
  · split
    · exact List.nil_sublist _
    · obtain ⟨others, hids⟩ := exists_ids_eq hg
      rw [hids]
      exact (List.nil_sublist others).cons_cons _

/-- No two services are about one namespace. -/
theorem homes_nodup (hg : Graph.ofDocument doc = .ok g) :
    ((documentedServices g).map (·.home)).Nodup :=
  (Graph.coherent_of_ofDocument hg).ids_nodup.sublist (homes_sublist hg)

/-- The global namespace is the first service, if it is one. -/
theorem exists_cons_of_root (hg : Graph.ofDocument doc = .ok g)
    (hroot : ∃ s ∈ documentedServices g, s.home = .root) : ∃ s rest,
      documentedServices g = s :: rest ∧ s.home = .root ∧ ∀ s' ∈ rest, s'.home ≠ .root := by
  obtain ⟨others, hids⟩ := exists_ids_eq hg
  have hnodup := (Graph.coherent_of_ofDocument hg).ids_nodup
  have hhomes := homes_nodup hg
  have hsublist := homes_sublist hg
  obtain ⟨root, hmem, hroot⟩ := hroot
  rw [hids] at hnodup hsublist
  cases hservices : documentedServices g with
  | nil =>
    rw [hservices] at hmem
    cases hmem
  | cons s rest =>
    rw [hservices, List.map_cons] at hsublist hhomes
    have hfirst : s.home = .root := by
      rcases List.sublist_cons_iff.mp hsublist with hothers | ⟨_, heq, _⟩
      · -- all services would come behind the global namespace, which is one of them
        have hin : root.home ∈ s.home :: rest.map (·.home) := by
          rw [← List.map_cons, ← hservices]
          exact List.mem_map_of_mem hmem
        rw [hroot] at hin
        exact absurd (hothers.subset hin) (List.nodup_cons.mp hnodup).1
      · exact (List.cons.inj heq).1
    refine ⟨s, rest, rfl, hfirst, fun s' hs' heq => (List.nodup_cons.mp hhomes).1 ?_⟩
    rw [hfirst, ← heq]
    exact List.mem_map_of_mem hs'

/-- The global namespace and a namespace `api` in it are both services. -/
def SharesFallback (g : Graph) : Prop :=
  (∃ s ∈ documentedServices g, s.home = .root) ∧
    ∃ s ∈ documentedServices g, s.home.path = ["api"]

instance (g : Graph) : Decidable (SharesFallback g) :=
  inferInstanceAs (Decidable (_ ∧ _))

theorem serviceName_eq (h : doc.SeparateNames) {scope : List Document.Namespace}
    (hs : doc.Scope s.home scope) :
    serviceName s = if s.home = .root then "api" else s.home.fullName := by
  unfold serviceName
  simp only [h.fullName_eq_empty_iff hs]

theorem path_eq_of_fullName (h : doc.SeparateNames) {scope : List Document.Namespace}
    (hs : doc.Scope s.home scope) (hname : s.home.fullName = "api") : s.home.path = ["api"] := by
  rw [NamespaceId.fullName_eq_join] at hname
  refine Text.join_inj (h.isPart_of_mem_path hs) (fun name hmem => ?_) hname
  obtain rfl := List.mem_singleton.mp hmem
  decide

/-- Services of one name are one service, or one of them is the global namespace and the other is
the namespace `api` in it. -/
theorem eq_of_serviceName_eq (hg : Graph.ofDocument doc = .ok g) (h : doc.SeparateNames)
    (hs : s ∈ documentedServices g) (hs' : s' ∈ documentedServices g)
    (hname : serviceName s = serviceName s') :
    s = s' ∨ (s.home = .root ∧ s'.home.path = ["api"]) ∨
      (s'.home = .root ∧ s.home.path = ["api"]) := by
  obtain ⟨_, _, hscope⟩ := exists_scope_of_documented hg hs
  obtain ⟨_, _, hscope'⟩ := exists_scope_of_documented hg hs'
  have hhome : s.home = s'.home → s = s' := List.inj_on_of_nodup_map (homes_nodup hg) hs hs'
  rw [serviceName_eq h hscope, serviceName_eq h hscope'] at hname
  by_cases hroot : s.home = .root <;> by_cases hroot' : s'.home = .root
  · exact .inl (hhome (hroot.trans hroot'.symm))
  · rw [if_pos hroot, if_neg hroot'] at hname
    exact .inr (.inl ⟨hroot, path_eq_of_fullName h hscope' hname.symm⟩)
  · rw [if_neg hroot, if_pos hroot'] at hname
    exact .inr (.inr ⟨hroot', path_eq_of_fullName h hscope hname⟩)
  · rw [if_neg hroot, if_neg hroot'] at hname
    exact .inl (hhome (h.fullName_inj hscope hscope' hname))

/-! ## The files of a program -/

theorem not_slash_mem_serviceName (h : doc.SeparateNames) {scope : List Document.Namespace}
    (hs : doc.Scope s.home scope) : '/' ∉ (serviceName s).toList := by
  unfold serviceName
  split
  · decide
  · exact h.not_slash_mem_fullName hs

theorem files_default (hg : Graph.ofDocument doc = .ok g) (he : g.hasErrors = false)
    (h : doc.SeparateNames) :
    files g {} = Keyed.ofList (·.1) ((documentedServices g).map (fileOf g)) := by
  unfold files
  rw [he, if_neg (by decide)]
  refine congrArg _ (List.map_congr_left fun s hs => ?_)
  obtain ⟨_, _, hscope⟩ := exists_scope_of_documented hg hs
  rw [outputFile_default (not_slash_mem_serviceName h hscope), fileOf]

/-- Services have different files, as long as not both the global namespace and the namespace
`api` in it are among them. -/
theorem map_fileOf_nodup (hg : Graph.ofDocument doc = .ok g) (h : doc.SeparateNames)
    {services : List Service} (hservices : services.Sublist (documentedServices g))
    (hfree : ∀ s ∈ services, ∀ s' ∈ services, s.home = .root → s'.home.path ≠ ["api"]) :
    ((services.map (fileOf g)).map (·.1)).Nodup := by
  have hnodup : services.Nodup := (List.Nodup.of_map _ (homes_nodup hg)).sublist hservices
  rw [List.map_map]
  refine hnodup.map_on fun s hs s' hs' heq => ?_
  have hname : serviceName s = serviceName s' := (String.append_left_inj ".md").mp heq
  rcases eq_of_serviceName_eq hg h (hservices.subset hs) (hservices.subset hs') hname with
    hsame | ⟨hroot, hpath⟩ | ⟨hroot, hpath⟩
  · exact hsame
  · exact absurd hpath (hfree s hs s' hs' hroot)
  · exact absurd hpath (hfree s' hs' s hs hroot)

/-- Where they are, the namespace `api` takes the file of the global one. -/
theorem perm_of_sharesFallback (hg : Graph.ofDocument doc = .ok g) (h : doc.SeparateNames)
    (hfallback : SharesFallback g) :
    (Keyed.ofList (·.1) ((documentedServices g).map (fileOf g))).Perm
      (((documentedServices g).filter (·.home ≠ .root)).map (fileOf g)) := by
  obtain ⟨hglobal, api, hapi, hpath⟩ := hfallback
  obtain ⟨root, rest, hservices, hroot, hothers⟩ := exists_cons_of_root hg hglobal
  have hnested : (root :: rest).filter (·.home ≠ .root) = rest := by
    rw [List.filter_cons_of_neg (by simp [hroot])]
    simpa [List.filter_eq_self] using hothers
  have hsublist : rest.Sublist (documentedServices g) := by
    rw [hservices]
    exact List.sublist_cons_self root rest
  have hin : api ∈ rest := by
    rw [hservices, List.mem_cons] at hapi
    refine hapi.resolve_left ?_
    rintro rfl
    rw [hroot] at hpath
    cases hpath
  have htaken : (fileOf g root).1 = (fileOf g api).1 := by
    have hname : api.home.fullName = "api" := by
      rw [NamespaceId.fullName_eq_join, hpath]
      rfl
    unfold fileOf serviceName
    rw [hroot, hname]
    rfl
  rw [hservices, hnested, List.map_cons]
  apply Keyed.ofList_cons_perm
  · exact map_fileOf_nodup hg h hsublist fun s hs _ _ hroot => absurd hroot (hothers s hs)
  · rw [htaken]
    exact List.mem_map_of_mem (List.mem_map_of_mem hin)

/-- **Every service has a file of its own, but for one name.** Where neighbouring namespaces have
different plain names, a program without errors has one file for each service under the default
template, with the document of that service. Only if the global namespace and a namespace `api` in
it are both services, they share a file, which holds the document of the latter. -/
theorem one_file_per_service (hg : Graph.ofDocument doc = .ok g) (he : g.hasErrors = false)
    (h : doc.SeparateNames) :
    ((files g {}).map (·.1)).Nodup ∧
      (¬ SharesFallback g → files g {} = (documentedServices g).map (fileOf g)) ∧
      (SharesFallback g →
        (files g {}).Perm (((documentedServices g).filter (·.home ≠ .root)).map (fileOf g))) := by
  have hfree : ¬ SharesFallback g → ((((documentedServices g).map (fileOf g))).map (·.1)).Nodup :=
    fun hfallback => map_fileOf_nodup hg h (List.Sublist.refl _) fun s hs s' hs' hroot hpath =>
      hfallback ⟨⟨s, hs, hroot⟩, s', hs', hpath⟩
  rw [files_default hg he h]
  refine ⟨?_, fun hfallback => Keyed.ofList_of_nodup (hfree hfallback),
    perm_of_sharesFallback hg h⟩
  by_cases hfallback : SharesFallback g
  · rw [((perm_of_sharesFallback hg h hfallback).map _).nodup_iff]
    refine map_fileOf_nodup hg h List.filter_sublist fun s hs _ _ hroot => ?_
    simp [hroot] at hs
  · rw [Keyed.ofList_of_nodup (hfree hfallback)]
    exact hfree hfallback

/-- Two services side by side, one of them with its operation further in. -/
def stores : Document :=
  { root :=
      { name := ""
        namespaces := [
          { name := "Pets", service := some ⟨some "Pets"⟩
            operations := [⟨"list", .get, "/pets", none, none, [], none, []⟩] },
          { name := "Store", service := some ⟨none⟩
            namespaces := [
              { name := "V1"
                operations := [⟨"order", .post, "/orders", none, none, [], none, []⟩] }] }] }
    diagnostics := [] }

theorem one_file_per_service_stores : ∃ g, Graph.ofDocument stores = .ok g ∧
    g.hasErrors = false ∧ stores.SeparateNames ∧ ¬ SharesFallback g ∧
    files g {} = (documentedServices g).map (fileOf g) ∧
    (files g {}).map (·.1) = ["Pets.md", "Store.md"] := by
  obtain ⟨g, hg, he, hfree, hkeys⟩ : ∃ g, Graph.ofDocument stores = .ok g ∧
      g.hasErrors = false ∧ ¬ SharesFallback g ∧
      (documentedServices g).map (serviceName · ++ ".md") = ["Pets.md", "Store.md"] :=
    ⟨_, rfl, rfl, by decide, by decide⟩
  have hnames : stores.SeparateNames := by decide
  obtain ⟨_, hfiles, _⟩ := one_file_per_service hg he hnames
  refine ⟨g, hg, he, hnames, hfree, hfiles hfree, ?_⟩
  rw [hfiles hfree, List.map_map]
  exact hkeys

/-- A service with another one of the name `api` in it. -/
def portal : Document :=
  { root :=
      { name := "", service := some ⟨some "Portal"⟩
        namespaces := [{ name := "api", service := some ⟨some "Core"⟩ }] }
    diagnostics := [] }

/-- A namespace of the name `api` takes the file of the global one, so two services can have one
file. -/
theorem one_file_portal : ∃ g, Graph.ofDocument portal = .ok g ∧ g.hasErrors = false ∧
    portal.SeparateNames ∧ (documentedServices g).length = 2 ∧ (files g {}).length = 1 := by
  have hg : Graph.ofDocument portal = .ok _ := rfl
  refine ⟨_, hg, rfl, ?_, ?_, ?_⟩
  all_goals decide

end Reference

end ApiEmit
