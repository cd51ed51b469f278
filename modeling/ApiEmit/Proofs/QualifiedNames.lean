/-
ApiEmit.Proofs.QualifiedNames — what a qualified name says about a declaration.

A declaration is known by its place and its name. The qualified name forgets the place but for the
dotted steps down to it, and that is all it forgets (`qualifiedName_eq_iff`): namespaces side by
side that have one name, namespaces without a name, and dots in names let two declarations have one
qualified name. Where none of these occur (`PlainNames`), it identifies the declaration, and the
usage by name is the usage map.
-/
import ApiEmit.Proofs.Paths
import ApiEmit.Proofs.Usage
import ApiEmit.Proofs.WellFormed

namespace ApiEmit

/-! ## The steps of a qualified name -/

namespace DeclId

/-- The names on the way to a declaration and its own, cut at the dots. -/
def steps (id : DeclId) : List String :=
  (id.home.path ++ [id.name]).flatMap (Text.split '.')

theorem qualifiedName_eq_join (id : DeclId) :
    id.qualifiedName = Text.join '.' (id.home.path ++ [id.name]) := by
  unfold qualifiedName NamespaceId.qualify
  rw [NamespaceId.fullName_eq_join]
  by_cases hpath : id.home.path = []
  · rw [hpath]
    exact String.intercalate_singleton.symm
  · have hne : Text.join '.' id.home.path ≠ "" := fun hempty =>
      hpath ((Text.join_eq_empty_iff fun _ h => NamespaceId.ne_empty_of_mem_path h).mp hempty)
    rw [if_neg hne, Text.join_append hpath (List.cons_ne_nil _ _)]
    exact congrArg _ String.intercalate_singleton.symm

theorem qualifiedName_eq_join_steps (id : DeclId) : id.qualifiedName = Text.join '.' id.steps := by
  rw [qualifiedName_eq_join, steps, Text.join_flatMap_split]

theorem steps_ne_nil (id : DeclId) : id.steps ≠ [] := by
  rw [steps, List.flatMap_append, List.flatMap_singleton]
  exact List.append_ne_nil_of_right_ne_nil _ (Text.split_ne_nil _)

theorem not_dot_of_mem_steps {id : DeclId} : ∀ step ∈ id.steps, '.' ∉ step.toList := by
  intro step hstep
  obtain ⟨name, _, hpart⟩ := List.mem_flatMap.mp hstep
  exact Text.not_mem_of_mem_split hpart

/-- Two declarations have one qualified name when the same dotted steps lead to them. -/
theorem qualifiedName_eq_iff {a b : DeclId} :
    a.qualifiedName = b.qualifiedName ↔ a.steps = b.steps := by
  rw [qualifiedName_eq_join_steps, qualifiedName_eq_join_steps]
  refine ⟨fun heq => ?_, fun heq => heq ▸ rfl⟩
  exact Text.join_inj_of_ne_nil a.steps_ne_nil b.steps_ne_nil not_dot_of_mem_steps
    not_dot_of_mem_steps heq

/-- In one namespace the qualified name tells declarations apart. -/
theorem name_eq_of_qualifiedName_eq {home : NamespaceId} {name name' : String}
    (h : (⟨home, name⟩ : DeclId).qualifiedName = (⟨home, name'⟩ : DeclId).qualifiedName) :
    name = name' := by
  unfold qualifiedName NamespaceId.qualify at h
  split at h
  · exact h
  · exact (String.append_right_inj _).mp h

end DeclId

/-! ## Plain names -/

namespace Document

variable {doc : Document} {g : Graph}

/-- The namespaces in one namespace have different names, none of them empty, no name has a dot,
and no namespace takes the reserved name of the built-in scalars. -/
structure PlainNames (doc : Document) : Prop extends NamedApart doc where
  undotted : ∀ id ns around, doc.Scope id (ns :: around) →
    ∀ c ∈ ns.namespaces, '.' ∉ c.name.toList
  declared : ∀ id ns around, doc.Scope id (ns :: around) →
    ∀ entry ∈ ns.declared, '.' ∉ entry.1.toList
  unreserved : ∀ c ∈ doc.root.namespaces, c.name ≠ NamespaceId.reservedName

theorem plainNames_iff : doc.PlainNames ↔
    (∀ s ∈ Load.sites .root doc.root, (s.content.namespaces.map (·.name)).Nodup ∧
      (∀ c ∈ s.content.namespaces, Text.IsPart '.' c.name) ∧
      ∀ entry ∈ s.content.declared, '.' ∉ entry.1.toList) ∧
    ∀ c ∈ doc.root.namespaces, c.name ≠ NamespaceId.reservedName := by
  rw [Load.forall_sites_iff]
  constructor
  · intro h
    exact ⟨fun id ns around hs => ⟨h.distinct id ns around hs,
      fun c hc => ⟨h.named id ns around hs c hc, h.undotted id ns around hs c hc⟩,
      h.declared id ns around hs⟩, h.unreserved⟩
  · rintro ⟨hsites, hroot⟩
    exact {
      distinct := fun id ns around hs => (hsites id ns around hs).1
      named := fun id ns around hs c hc => ((hsites id ns around hs).2.1 c hc).1
      undotted := fun id ns around hs c hc => ((hsites id ns around hs).2.1 c hc).2
      declared := fun id ns around hs => (hsites id ns around hs).2.2
      unreserved := hroot }

instance (doc : Document) : Decidable doc.PlainNames :=
  decidable_of_iff _ plainNames_iff.symm

namespace PlainNames

variable {id id' : NamespaceId} {scope scope' : List Document.Namespace}

/-- The steps of a path can be read back from a dotted name. -/
theorem isPart_of_mem_path (h : doc.PlainNames) (hs : Load.Stands doc id scope) :
    ∀ name ∈ id.path, Text.IsPart '.' name := by
  intro name hname
  rcases hs with hs | ⟨rfl, _⟩
  · obtain ⟨hne, outer, ns, around, hscope, c, hc, rfl⟩ := exists_of_mem_path hs hname
    exact ⟨hne, h.undotted outer ns around hscope c hc⟩
  · obtain rfl : name = NamespaceId.reservedName := List.mem_singleton.mp hname
    decide

/-- No written namespace has the path of the built-in scalars. -/
theorem path_ne_library (h : doc.PlainNames) (hs : doc.Scope id scope) :
    id.path ≠ NamespaceId.library.path := by
  intro hpath
  cases hs with
  | root => cases hpath
  | @child outer ns c around i hscope hc =>
    have hmem := List.mem_of_getElem? hc
    rw [NamespaceId.path_child _ _ (h.named _ _ _ hscope _ hmem)] at hpath
    obtain ⟨houter, hlast⟩ : outer.path = [] ∧ [c.name] = [NamespaceId.reservedName] :=
      List.append_inj' hpath rfl
    obtain rfl := (h.path_eq_nil_iff hscope).mp houter
    cases hscope
    exact h.unreserved c hmem (List.singleton_inj.mp hlast)

/-- A path leads to one namespace, the one of the built-in scalars included. -/
theorem home_inj (h : doc.PlainNames) (hs : Load.Stands doc id scope)
    (hs' : Load.Stands doc id' scope') (hpath : id.path = id'.path) : id = id' := by
  rcases hs with hs | ⟨rfl, _⟩ <;> rcases hs' with hs' | ⟨rfl, _⟩
  · exact (h.path_inj hs hs' hpath).1
  · exact absurd hpath (h.path_ne_library hs)
  · exact absurd hpath.symm (h.path_ne_library hs')
  · rfl

end PlainNames

end Document

namespace Graph

variable {doc : Document} {g : Graph} {a b : DeclId}

/-! ## Declarations with one qualified name -/

/-- What is declared stands at a place of the document, or is built in. -/
theorem exists_stands_of_mem (hg : Graph.ofDocument doc = .ok g)
    (ha : a ∈ g.declarations.map (·.1)) : ∃ ns around,
      Load.Stands doc a.home (ns :: around) ∧ ∃ kind, (a.name, kind) ∈ ns.declared := by
  obtain ⟨entry, hentry, hin⟩ := List.mem_flatMap.mp ((Load.ids_perm_declIds hg).mem_iff.mp ha)
  obtain ⟨content, around, hstands, heq⟩ := (Load.mem_namespaces_iff hg).mp hentry
  obtain ⟨⟨name, kind⟩, hdeclared, rfl⟩ := List.mem_map.mp hin
  rw [heq, Load.declared_declare] at hdeclared
  exact ⟨content, around, hstands, kind, hdeclared⟩

theorem not_dot_of_mem (h : doc.PlainNames) (hg : Graph.ofDocument doc = .ok g)
    (ha : a ∈ g.declarations.map (·.1)) : ∀ name ∈ a.home.path ++ [a.name], '.' ∉ name.toList := by
  obtain ⟨ns, around, hstands, kind, hkind⟩ := exists_stands_of_mem hg ha
  intro name hname
  rcases List.mem_append.mp hname with hname | hname
  · exact (h.isPart_of_mem_path hstands name hname).2
  · obtain rfl := List.mem_singleton.mp hname
    rcases hstands with hscope | ⟨_, hlibrary⟩
    · exact h.declared _ _ _ hscope _ hkind
    · have hbuiltIn : ∀ entry ∈ Document.library.declared, '.' ∉ entry.1.toList := by decide
      obtain ⟨rfl, _⟩ := List.cons.inj hlibrary
      exact hbuiltIn _ hkind

/-- Where names are plain, the qualified name identifies a declaration. -/
theorem eq_of_qualifiedName_eq (h : doc.PlainNames) (hg : Graph.ofDocument doc = .ok g)
    (ha : a ∈ g.declarations.map (·.1)) (hb : b ∈ g.declarations.map (·.1))
    (hname : a.qualifiedName = b.qualifiedName) : a = b := by
  rw [DeclId.qualifiedName_eq_join, DeclId.qualifiedName_eq_join] at hname
  have hlong : ∀ id : DeclId, id.home.path ++ [id.name] ≠ [] := fun id =>
    List.append_ne_nil_of_right_ne_nil _ (List.cons_ne_nil _ _)
  have hsteps := Text.join_inj_of_ne_nil (hlong a) (hlong b) (not_dot_of_mem h hg ha)
    (not_dot_of_mem h hg hb) hname
  obtain ⟨hpath, hlast⟩ := List.append_inj' hsteps rfl
  obtain ⟨_, _, hstands, _⟩ := exists_stands_of_mem hg ha
  obtain ⟨_, _, hstands', _⟩ := exists_stands_of_mem hg hb
  exact congrArg₂ DeclId.mk (h.home_inj hstands hstands' hpath) (List.singleton_inj.mp hlast)

/-- The names of one namespace give different qualified names. -/
theorem qualifiedNames_nodup_in (hg : Graph.ofDocument doc = .ok g) {ns : Namespace}
    (hns : ns ∈ g.namespaces) : (ns.declIds.map (·.qualifiedName)).Nodup := by
  have hnames := (coherent_of_ofDocument hg).names_nodup ns hns
  have heq : ns.declIds.map (·.qualifiedName) =
      (ns.declared.map (·.1)).map fun name => (⟨ns.id, name⟩ : DeclId).qualifiedName := by
    simp [Namespace.declIds]
  rw [heq]
  exact hnames.map fun _ _ => DeclId.name_eq_of_qualifiedName_eq

/-! ## Usage by name -/

/-- The declarations that have a usage, in the order in which they are first reached. -/
def used (g : Graph) : List DeclId :=
  g.classify.entries.map (·.1)

/-- What has a usage is declared. -/
theorem mem_declarations_of_mem_used (ha : a ∈ g.used) : a ∈ g.declarations.map (·.1) := by
  have hcontains : g.classify.contains a = true := Keyed.isSome_lookup_iff.mpr ha
  obtain ⟨role, hrole⟩ := contains_classify_iff.mp hcontains
  have hmem : ∀ {d : Declaration}, g.declaration? a = some d → a ∈ g.declarations.map (·.1) :=
    fun hd => List.mem_map_of_mem (mem_declarations_of_declaration? hd)
  cases (hasRole_classify_iff.mp hrole).1 with
  | model hm => exact hmem (model?_eq_some_iff.mp hm)
  | enum he => exact hmem (enum?_eq_some_iff.mp he)
  | union hu => exact hmem (union?_eq_some_iff.mp hu)

/-- The usage by name is the own usage of each declaration, with one entry for each name. -/
theorem byName_eq_ofList (g : Graph) : g.classify.byName =
    Keyed.ofList (·.1) (g.used.map fun id => (id.qualifiedName, g.classify.usageOf id)) := by
  unfold UsageMap.byName used
  rw [List.map_map]
  refine congrArg _ (List.map_congr_left fun entry hentry => ?_)
  have hroles : g.classify.roles? entry.1 = some entry.2 :=
    (Keyed.lookup_eq_some_iff_mem (ids_nodup_classify g)).mpr hentry
  simp only [Function.comp_apply, UsageMap.usageOf, hroles, Option.map_some, Option.getD_some]

/-- The names are those of the declarations that are used, each once. -/
theorem names_byName (g : Graph) :
    g.classify.byName.map (·.1) = Keyed.keysOf (·.qualifiedName) g.used := by
  rw [byName_eq_ofList, Keyed.map_ofList, Keyed.keysOf, List.map_map]
  rfl

/-- The entry of a name is the usage of the last declaration that has the name. -/
theorem mem_byName_iff {name : String} {usage : Usage} : (name, usage) ∈ g.classify.byName ↔
    ∃ before id after, g.used = before ++ id :: after ∧ id.qualifiedName = name ∧
      g.classify.usageOf id = usage ∧ ∀ later ∈ after, later.qualifiedName ≠ name := by
  rw [byName_eq_ofList, Keyed.mem_ofList_iff]
  constructor
  · rintro ⟨before, after, heq, hafter⟩
    obtain ⟨before, rest, hused, rfl, hrest⟩ := List.map_eq_append_iff.mp heq
    obtain ⟨id, after, rfl, hid, rfl⟩ := List.map_eq_cons_iff.mp hrest
    obtain ⟨rfl, rfl⟩ := Prod.mk.inj hid
    exact ⟨before, id, after, hused, rfl, rfl, fun later hlater =>
      hafter _ (List.mem_map_of_mem hlater)⟩
  · rintro ⟨before, id, after, hused, rfl, rfl, hafter⟩
    refine ⟨_, _, by rw [hused, List.map_append, List.map_cons], fun later hlater => ?_⟩
    obtain ⟨other, hother, rfl⟩ := List.mem_map.mp hlater
    exact hafter other hother

/-- **A qualified name says which dotted steps lead to a declaration**, and no more. It tells the
declarations of a namespace apart, and with plain names all declarations of a program: then the
usage by name has one entry for each declaration that is used, with its own usage. In general it
has one entry for each name, with the usage of the last declaration that has the name. -/
theorem qualifiedName_identifies (hg : Graph.ofDocument doc = .ok g) :
    (∀ a b : DeclId, a.qualifiedName = b.qualifiedName ↔ a.steps = b.steps) ∧
    (∀ ns ∈ g.namespaces, (ns.declIds.map (·.qualifiedName)).Nodup) ∧
    (doc.PlainNames → (g.declarations.map (·.1.qualifiedName)).Nodup ∧
      g.classify.byName = g.used.map fun id => (id.qualifiedName, g.classify.usageOf id)) ∧
    g.classify.byName.map (·.1) = Keyed.keysOf (·.qualifiedName) g.used ∧
    (∀ name usage, (name, usage) ∈ g.classify.byName ↔
      ∃ before id after, g.used = before ++ id :: after ∧ id.qualifiedName = name ∧
        g.classify.usageOf id = usage ∧ ∀ later ∈ after, later.qualifiedName ≠ name) := by
  refine ⟨fun _ _ => DeclId.qualifiedName_eq_iff, fun ns hns => qualifiedNames_nodup_in hg hns,
    fun hplain => ⟨?_, ?_⟩, names_byName g, fun _ _ => mem_byName_iff⟩
  · have hids := (ids_nodup_of_ofDocument hg).map_on fun a ha b hb =>
      eq_of_qualifiedName_eq hplain hg ha hb
    rwa [List.map_map] at hids
  · have hused : (g.used.map (·.qualifiedName)).Nodup :=
      (ids_nodup_classify g).map_on fun a ha b hb => eq_of_qualifiedName_eq hplain hg
        (mem_declarations_of_mem_used ha) (mem_declarations_of_mem_used hb)
    rw [byName_eq_ofList]
    apply Keyed.ofList_of_nodup
    rw [List.map_map]
    exact hused

/-- Two namespaces with a model each, one that is sent and one that is received. -/
def parcelsIn (outbound inbound : String) : Document :=
  { root :=
      { name := ""
        namespaces := [
          { name := outbound
            models := [⟨"Parcel", none, none, none, [], {}⟩]
            operations := [⟨"send", .put, "/sent", none, none, [], some ⟨.ref "Parcel", []⟩, []⟩] },
          { name := inbound
            models := [⟨"Parcel", none, none, none, [], {}⟩]
            operations := [⟨"receive", .get, "/received", none, none, [], none,
              [⟨.code 200, none, [⟨.ref "Parcel", []⟩]⟩]⟩] }] }
    diagnostics := [] }

theorem qualifiedName_identifies_parcels : ∃ g,
    Graph.ofDocument (parcelsIn "Outbound" "Inbound") = .ok g ∧
    (parcelsIn "Outbound" "Inbound").PlainNames ∧
    (g.declarations.map (·.1.qualifiedName)).Nodup ∧
    g.classify.byName = [("Outbound.Parcel", .input), ("Inbound.Parcel", .output)] := by
  obtain ⟨g, hg, hused⟩ : ∃ g, Graph.ofDocument (parcelsIn "Outbound" "Inbound") = .ok g ∧
      (g.used.map fun id => (id.qualifiedName, g.classify.usageOf id)) =
        [("Outbound.Parcel", .input), ("Inbound.Parcel", .output)] :=
    ⟨_, rfl, by decide⟩
  have hplain : (parcelsIn "Outbound" "Inbound").PlainNames := by decide
  obtain ⟨_, _, hidentifies, _⟩ := qualifiedName_identifies hg
  exact ⟨g, hg, hplain, (hidentifies hplain).1, hused ▸ (hidentifies hplain).2⟩

/-- Two namespaces side by side may have one name, and then two declarations have one qualified
name, of which the usage by name keeps the later one only. -/
theorem qualifiedName_shared_parcels : ∃ g, Graph.ofDocument (parcelsIn "Post" "Post") = .ok g ∧
    (∃ a ∈ g.used, ∃ b ∈ g.used, a ≠ b ∧ a.qualifiedName = b.qualifiedName) ∧
    g.used.length = 2 ∧ g.classify.byName = [("Post.Parcel", .output)] := by
  have hg : Graph.ofDocument (parcelsIn "Post" "Post") = .ok _ := rfl
  refine ⟨_, hg, ?_⟩
  decide

end Graph

end ApiEmit
