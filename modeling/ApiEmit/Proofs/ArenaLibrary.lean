/-
ApiEmit.Proofs.ArenaLibrary — the arena that every program starts from.

The built-in scalars are declared one by one, each filled in right away, and each restricts one that
is declared before it. After any number of them the arena is the form of the graph that has just
these (`declareBuiltIns_follow`), so after all of them it is that of the graph with the library.
-/
import ApiEmit.Proofs.ArenaDeclared
import ApiEmit.Graph.Library

namespace ApiEmit

namespace Library

/-- The declaration of a built-in scalar. -/
def declarationOf (entry : String × Option String) : DeclId × Declaration :=
  (scalarId entry.1,
    .scalar { doc := none, base := entry.2.map scalarId, constraints := {} })

/-- The graph that has only a library, with some of its scalars. -/
def graph (entries : List (String × Option String)) : Graph where
  namespaces := [Arena.vacant .root,
    (Arena.vacant NamespaceId.library).extend .scalar (entries.map (·.1))]
  declarations := entries.map declarationOf
  operations := []
  diagnostics := []

theorem graph_append (entries : List (String × Option String)) (entry : String × Option String) :
    graph (entries ++ [entry]) =
      { (graph entries).add [declarationOf entry] with
        namespaces := (graph entries).namespaces.set 1
          (((Arena.vacant NamespaceId.library).extend .scalar (entries.map (·.1))).extend .scalar
            [entry.1]) } := by
  rw [ApiEmit.Namespace.extend_extend]
  simp [graph, Graph.add]

theorem scalars_nodup : (scalars.map (·.1)).Nodup := by decide

/-- A built-in scalar restricts one that stands before it. -/
theorem base_mem_take : ∀ k < scalars.length, ∀ entry ∈ scalars[k]?, ∀ base ∈ entry.2,
    base ∈ (scalars.take k).map (·.1) := by decide

end Library

namespace Arena

variable {L : Legend} {a : Arena}

/-! ## One built-in scalar -/

/-- The base of a built-in scalar is found in the table of names. -/
theorem builtInBase_shows {operations : List ApiEmit.Operation} {ns : ApiEmit.Namespace}
    {node : Namespace} (h : ShowsNamespace L operations ns node) {base : Option String}
    (hbase : ∀ name, base = some name → name ∈ ns.declared.map (·.1)) :
    Option.Rel L.IsDecl (base.map (⟨ns.id, ·⟩))
      (base.bind fun name => node.declared.lookup name) := by
  cases base with
  | none => exact .none
  | some name =>
    have hsome : (node.declared.lookup name).isSome = true :=
      Keyed.isSome_lookup_iff.mpr ((h.names name).mpr (hbase name rfl))
    obtain ⟨i, hi⟩ := Option.isSome_iff_exists.mp hsome
    rw [Option.map_some, Option.bind_some, hi]
    exact .some (h.declared _ (Keyed.mem_of_lookup hi))

/-- A scalar that is declared and filled in at once. -/
theorem Declaring.declareScalar {g : Graph} (h : Declaring L g a) {k : Nat}
    {ns : ApiEmit.Namespace} {node : Namespace} (hns : g.namespaces[k]? = some ns)
    (hnode : a.namespaces[k]? = some node) {name : String}
    (hname : name ∉ ns.declared.map (·.1)) (hwaiting : g.declaration? ⟨ns.id, name⟩ = none)
    {base : Option DeclId} {shown : Option TypeIndex} (hbase : Option.Rel L.IsDecl base shown) :
    Declaring (L.own ⟨ns.id, name⟩)
      (({ g with namespaces := g.namespaces.set k (ns.extend .scalar [name]) } : Graph).add
        [(⟨ns.id, name⟩, .scalar { doc := none, base, constraints := {} })])
      { a with
        types := a.types ++ [.scalar { name, home := some ⟨k⟩, base := shown }]
        namespaces := a.namespaces.set k
          ((node.list .scalar ⟨a.types.length⟩).enter name ⟨a.types.length⟩) } := by
  have hdeclared := h.declare hns hnode .scalar hname
  have hk := keeps_own h.full ⟨ns.id, name⟩ .placeholder
  have hi : (L.own ⟨ns.id, name⟩).IsDecl ⟨ns.id, name⟩ ⟨a.types.length⟩ :=
    Legend.isDecl_own_iff.mpr (.inr ⟨h.full.symm, rfl⟩)
  have hshows : ShowsDeclaration (L.own ⟨ns.id, name⟩) (a.types ++ [.placeholder]) ⟨ns.id, name⟩
      (.scalar { doc := none, base, constraints := {} })
      (.scalar { name, home := some ⟨k⟩, base := shown }) :=
    .scalar (h.isPlace_id hns) (Aligned.option_imp hk.decl hbase)
  have hlisted : Listed (g.namespaces.set k (ns.extend .scalar [name])) ⟨ns.id, name⟩ .scalar := by
    refine ⟨_, List.mem_set (List.getElem?_eq_some_iff.mp hns).1 _, ApiEmit.Namespace.id_extend, ?_⟩
    rw [ApiEmit.Namespace.mem_declared_iff, ApiEmit.Namespace.listed_extend, if_pos rfl]
    exact List.mem_append_right _ List.mem_cons_self
  have hfilled := hdeclared.toRepresents.fill hi hshows hwaiting hlisted
  rw [List.set_append_right _ _ (Nat.le_refl _), Nat.sub_self, List.set_cons_zero] at hfilled
  dsimp only at hfilled
  rw [← Namespace.enter_list] at hfilled
  exact
    { toRepresents := hfilled
      full := by simp [Legend.own, h.full]
      noOperations := h.noOperations }

theorem declareBuiltIn_follows {before : List (String × Option String)}
    {entry : String × Option String} (h : Declaring L (Library.graph before) a)
    (hname : entry.1 ∉ before.map (·.1))
    (hbase : ∀ base, entry.2 = some base → base ∈ before.map (·.1)) :
    Follows (Loader.declareBuiltIn entry) a (.ok ())
      (Declares L a (Library.graph (before ++ [entry])) fun _ _ => True) := by
  obtain ⟨name, base⟩ := entry
  have hns : (Library.graph before).namespaces[library.position]? =
      some ((vacant NamespaceId.library).extend .scalar (before.map (·.1))) := rfl
  obtain ⟨node, hnode, hshows⟩ := h.exists_node_at hns
  have hnames : ∀ n, n ∈ ((vacant NamespaceId.library).extend .scalar
      (before.map (·.1))).declared.map (·.1) ↔ n ∈ before.map (·.1) := by
    intro n
    rw [ApiEmit.Namespace.mem_names_extend_iff]
    simp [vacant, ApiEmit.Namespace.declared]
  have hwaiting : (Library.graph before).declaration? (Library.scalarId name) = none := by
    rw [Graph.declaration?, ← Option.not_isSome_iff_eq_none, Keyed.isSome_lookup_iff]
    simpa [Library.graph, Library.declarationOf, Library.scalarId] using hname
  have hshown := builtInBase_shows hshows fun n hn => (hnames n).mpr (hbase n hn)
  have hdeclared := h.declareScalar hns hnode (fun hmem => hname ((hnames name).mp hmem)) hwaiting
    hshown
  rw [← List.set_set (node.list .scalar ⟨a.types.length⟩)] at hdeclared
  have hlt : library.position < a.namespaces.length := (List.getElem?_eq_some_iff.mp hnode).1
  unfold Loader.declareBuiltIn
  refine Follows.ask hnode ?_
  refine Follows.silent rfl ?_
  have hnode' : ({ a with types := a.types ++ [.scalar
      { name, home := some library, base := base.bind fun n => node.declared.lookup n }] }
        : Arena).namespace? library = some node := hnode
  refine Follows.silent (Loader.update_eq hnode' _) ?_
  have hnode'' : ({ a with
      types := a.types ++ [.scalar
        { name, home := some library, base := base.bind fun n => node.declared.lookup n }]
      namespaces := a.namespaces.set library.position (node.list .scalar ⟨a.types.length⟩) }
        : Arena).namespace? library = some (node.list .scalar ⟨a.types.length⟩) :=
    List.getElem?_set_self hlt
  refine ⟨(), _, Loader.update_eq hnode'' _, _, keeps_own h.full (Library.scalarId name) _, ?_,
    trivial⟩
  rw [Library.graph_append]
  exact hdeclared

/-! ## All of them -/

/-- The built-in scalars that are left are declared. -/
theorem declareBuiltIns_follow {before after : List (String × Option String)}
    (h : Declaring L (Library.graph before) a) (hall : before ++ after = Library.scalars) :
    Follows (after.forM Loader.declareBuiltIn) a (.ok ())
      (Declares L a (Library.graph Library.scalars) fun _ _ => True) := by
  induction after generalizing L before a with
  | nil =>
    rw [List.append_nil] at hall
    exact Follows.pure ⟨L, .refl L a.types, hall ▸ h, trivial⟩
  | cons entry after ih =>
    have hname : entry.1 ∉ before.map (·.1) := by
      have hnodup := Library.scalars_nodup
      rw [← hall, List.map_append, List.map_cons, List.nodup_append] at hnodup
      exact fun hmem => hnodup.2.2 _ hmem _ List.mem_cons_self rfl
    have hbase : ∀ base, entry.2 = some base → base ∈ before.map (·.1) := by
      intro base hbase
      have hlt : before.length < Library.scalars.length := by
        rw [← hall, List.length_append, List.length_cons]
        omega
      have hentry : Library.scalars[before.length]? = some entry := by
        rw [← hall, List.getElem?_append_right (Nat.le_refl _), Nat.sub_self]
        rfl
      have hmem := Library.base_mem_take before.length hlt entry hentry base hbase
      rwa [← hall, List.take_left] at hmem
    rw [List.forM_eq_forM, List.forM_cons]
    refine Declares.bind (declareBuiltIn_follows h hname hbase) fun L₁ _ a₁ hk₁ h₁ _ => ?_
    rw [List.append_cons] at hall
    exact ih h₁ hall

/-- What is there before anything is declared: the global namespace and that of the library. -/
def bare : Arena :=
  { blank with
    namespaces := [{ children := [library] },
      { name := NamespaceId.reservedName, parent := some ⟨0⟩ }] }

/-- The legend of what is there. -/
def bareLegend : Legend := ⟨[.root, NamespaceId.library], [none, none, none, none]⟩

theorem owner?_bareLegend (i : TypeIndex) : bareLegend.owner? i = none := by
  obtain ⟨position⟩ := i
  match position with
  | 0 | 1 | 2 | 3 => rfl
  | _ + 4 => rfl

/-- The namespaces that are there. -/
theorem bare_showsTree : ShowsTree bareLegend [] (Library.graph []).namespaces bare.namespaces where
  places := rfl
  places_nodup := by decide
  root := rfl
  library := rfl
  length_eq := rfl
  namespaces i ns node hns hnode := by
    match i with
    | 0 =>
      cases hns
      cases hnode
      refine ⟨rfl, .none, rfl, rfl, rfl, .cons rfl .nil, fun kind => ?_, nofun, fun _ => Iff.rfl,
        rfl⟩
      cases kind <;> exact .nil
    | 1 =>
      cases hns
      cases hnode
      refine ⟨rfl, .some rfl, rfl, rfl, rfl, .nil, fun kind => ?_, nofun, fun _ => Iff.rfl, rfl⟩
      cases kind <;> exact .nil
  parent_lt i node outer hnode houter := by
    match i with
    | 0 =>
      cases hnode
      cases houter
    | 1 =>
      cases hnode
      cases houter
      exact Nat.zero_lt_one
  names_nodup := by decide

theorem bare_declaring : Declaring bareLegend (Library.graph []) bare where
  toShowsTree := bare_showsTree
  owner_inj d i _ hi := absurd (hi.symm.trans (owner?_bareLegend i)) (Option.some_ne_none _)
  owner_listed d i hi := absurd (hi.symm.trans (owner?_bareLegend i)) (Option.some_ne_none _)
  owners_le := Nat.le_refl _
  intrinsics k i hi := by
    cases k <;> cases hi <;> exact ⟨rfl, rfl⟩
  inline node i hi := by
    have hmem : node ∈ [Intrinsic.null, .void, .never, .unknown].map Node.intrinsic :=
      List.mem_of_getElem? hi.2
    obtain ⟨k, _, rfl⟩ := List.mem_map.mp hmem
    exact ⟨.intrinsic k, .intrinsic hi⟩
  kinds d decl hd := by cases hd
  resolved d decl i hd := by cases hd
  waiting d i _ hi := absurd (hi.symm.trans (owner?_bareLegend i)) (Option.some_ne_none _)
  global := rfl
  operations := .nil
  diagnostics := rfl
  full := rfl
  noOperations := rfl

/-- **Loading starts from the arena of the library.** -/
theorem declareLibrary_follows : Follows Loader.declareLibrary blank (.ok ())
    fun _ _ a' => ∃ L, Declaring L (Library.graph Library.scalars) a' := by
  refine Follows.silent (rfl : _ = Except.ok (library, bare)) ?_
  refine (declareBuiltIns_follow bare_declaring rfl).imp fun _ _ a' hpost => ?_
  obtain ⟨L, _, h, _⟩ := hpost
  exact ⟨L, h⟩

end Arena

end ApiEmit
