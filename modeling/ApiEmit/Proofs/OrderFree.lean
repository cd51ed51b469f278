/-
ApiEmit.Proofs.OrderFree — what is written does not depend on the order of declarations.

Programs in which the same is declared answer alike (`SameDeclarations`), down to the Python
declarations. Roles depend besides on the operations that decide, which are the same in any order.
Together with the loading of reordered documents this gives the main statement: the order of a
document does not matter.
-/
import ApiEmit.Proofs.Naming
import ApiEmit.Proofs.Reordering
import ApiEmit.Proofs.SameDeclarations

namespace ApiEmit

namespace Graph

/-! ## Programs up to order -/

variable {g g' : Graph}

theorem SameUpToOrder.sameDeclarations (h : g.SameUpToOrder g')
    (hnodup : (g.declarations.map (·.1)).Nodup) : g.SameDeclarations g' where
  declaration? := funext (lookup_eq_of_perm h.declarations hnodup)
  length := h.declarations.length_eq
  size := h.declarations.foldr_eq' (fun x _ y _ z => by omega) 0

theorem SameUpToOrder.symm (h : g.SameUpToOrder g') : g'.SameUpToOrder g where
  namespaces := (h.namespaces.imp fun _ _ hns =>
    ⟨hns.id.symm, hns.doc.symm, hns.service.symm, hns.servers.symm, hns.declared.symm⟩).flip
  declarations := h.declarations.symm
  operations := h.operations.symm
  diagnostics := h.diagnostics.symm

/-! ## Roles -/

/-- The operations that decide about usage are the same. -/
theorem SameUpToOrder.serves (h : g.SameUpToOrder g') {op : Operation} (hop : g.Serves op) :
    g'.Serves op := by
  obtain ⟨hmem, ns, hns, hservice, hwithin⟩ := hop
  obtain ⟨ns', hns', hsame⟩ := Aligned.exists_left h.symm.namespaces hns
  exact ⟨h.operations.mem_iff.mp hmem, ns', hns', hsame.service ▸ hservice, hsame.id ▸ hwithin⟩

theorem SameUpToOrder.considers_iff (h : g.SameUpToOrder g') {op : Operation} :
    g.Considers op ↔ g'.Considers op := by
  have hserves : ∀ other, g.Serves other ↔ g'.Serves other := fun other =>
    ⟨h.serves, h.symm.serves⟩
  unfold Considers
  simp only [hserves, h.operations.mem_iff]

theorem hasRole_classify_congr (h : g.SameUpToOrder g') (hd : g.SameDeclarations g') {id : DeclId}
    {role : Role} : g.classify.HasRole id role ↔ g'.classify.HasRole id role := by
  rw [hasRole_classify_iff, hasRole_classify_iff, ← isTagged_iff, ← isTagged_iff, hd.isTagged_eq,
    hd.reaches_eq]
  simp only [h.considers_iff]

/-- What is in the usage map is known by its roles. -/
theorem roles?_classify_congr (h : g.SameUpToOrder g') (hd : g.SameDeclarations g')
    (id : DeclId) : g.classify.roles? id = g'.classify.roles? id := by
  have hrole : ∀ role, g.classify.HasRole id role ↔ g'.classify.HasRole id role := fun role =>
    hasRole_classify_congr h hd
  have hcontains : g.classify.contains id = g'.classify.contains id := by
    rw [Bool.eq_iff_iff, contains_classify_iff, contains_classify_iff]
    simp only [hrole]
  unfold UsageMap.contains at hcontains
  unfold UsageMap.HasRole at hrole
  cases hroles : g.classify.roles? id with
  | none =>
    rw [hroles, Option.isSome_none, eq_comm, Option.isSome_eq_false_iff, Option.isNone_iff_eq_none]
      at hcontains
    exact hcontains.symm
  | some roles =>
    rw [hroles, Option.isSome_some, eq_comm, Option.isSome_iff_exists] at hcontains
    obtain ⟨roles', hroles'⟩ := hcontains
    rw [hroles, hroles'] at hrole
    have hinput := hrole .input
    have houtput := hrole .output
    simp only [Option.some.injEq, exists_eq_left', Roles.has] at hinput houtput
    rw [hroles', Option.some.injEq]
    obtain ⟨input, output⟩ := roles
    obtain ⟨input', output'⟩ := roles'
    rw [Roles.mk.injEq]
    exact ⟨Bool.eq_iff_iff.mpr hinput, Bool.eq_iff_iff.mpr houtput⟩

end Graph

namespace Pydantic

open ApiEmit.Graph (SameDeclarations)

variable {g g' : Graph} {names names' : NameTable}

/-! ## Python declarations -/

section

variable (h : g.SameDeclarations g')
include h

theorem scalarHint_congr : scalarHint g = scalarHint g' := by
  funext id
  rw [scalarHint, scalarHint, h.scalarChain_eq]

theorem annotate?_congr (hnames : names.nameOf = names'.nameOf) (depth : Nat) :
    annotate? g names depth = annotate? g' names' depth := by
  have hforward : forwardReference names = forwardReference names' := by
    funext id refs
    rw [forwardReference, forwardReference, hnames]
  induction depth with
  | zero =>
    funext t refs
    rfl
  | succ depth ih =>
    funext t refs
    cases t with
    | ref id =>
      simp only [annotate?, h.declaration?, scalarHint_congr h, hforward, ih, h.mapValue?_eq,
        h.isStructural_eq]
    | intrinsic i => cases i <;> rfl
    | _ => simp only [annotate?, ih]

theorem hintOf_congr (hnames : names.nameOf = names'.nameOf) :
    hintOf g names = hintOf g' names' := by
  funext t
  rw [hintOf, hintOf, annotate, annotate, h.size, annotate?_congr h hnames]

theorem fieldValue_congr : fieldValue g = fieldValue g' := by
  have hliteral : defaultLiteral g = defaultLiteral g' := by
    funext value
    cases value with
    | member => rw [defaultLiteral, defaultLiteral, h.enum?_eq]
    | _ => rfl
  have hconstraints : typeConstraints g = typeConstraints g' := by
    funext t
    cases t with
    | ref id => simp only [typeConstraints, h.declaration?, h.scalarChain_eq, h.scalar?_eq]
    | _ => rfl
  have hdefault : fieldDefault? g = fieldDefault? g' := by
    funext p
    rw [fieldDefault?, fieldDefault?, hliteral]
  have harguments : fieldArguments g = fieldArguments g' := by
    funext p
    rw [fieldArguments, fieldArguments, propertyCandidates, propertyCandidates, hconstraints]
  funext p
  rw [fieldValue, fieldValue, hdefault, harguments]

/-- A declaration has the same Python declaration. -/
theorem statement?_congr (hnames : names.nameOf = names'.nameOf) :
    statement? g names = statement? g' names' := by
  have hhint := hintOf_congr h hnames
  have hfield : field g names = field g' names' := by
    funext p
    rw [field, field, hhint, fieldValue_congr h]
  have hbase : baseName g names = baseName g' names' := by
    funext m
    rw [baseName, baseName, h.isStructural_eq, hnames]
  funext id
  simp only [statement?, h.declaration?, hnames, aliasDef, classDef, hhint, hfield, hbase]

end

/-! ## Modules -/

/-- Modules that render the same declarations have the same statements, up to order. -/
theorem Renders.statements_perm {m m' : Python.Module} {decls decls' : DeclId → Prop}
    (h : Renders g names m decls) (h' : Renders g' names' m' decls')
    (hdecls : ∀ id, decls id ↔ decls' id)
    (hstatement : statement? g names = statement? g' names') :
    m.statements.Perm m'.statements := by
  obtain ⟨order, hnodup, hmem, hstatements⟩ := h
  obtain ⟨order', hnodup', hmem', hstatements'⟩ := h'
  have horder : order.Perm order' :=
    (List.perm_ext_iff_of_nodup hnodup hnodup').mpr fun id => by rw [hmem, hmem', hdecls]
  have hsome : (m.statements.map some).Perm (m'.statements.map some) := by
    rw [hstatements, hstatements', hstatement]
    exact horder.map _
  exact (List.map_perm_map_iff fun _ _ => Option.some.inj).mp hsome

/-- The same is declared in two programs, and it has the same roles, the same Python name, and the
same Python declaration in the module of the same usage. -/
structure Alike (g g' : Graph) : Prop where
  declaration? : ∀ id, g.declaration? id = g'.declaration? id
  roles? : ∀ id, g.classify.roles? id = g'.classify.roles? id
  nameOf : ∀ id, (nameTable g).nameOf id = (nameTable g').nameOf id
  goes_iff : ∀ o u id, Goes g o u id ↔ Goes g' o u id
  statement? : ∀ id, statement? g (nameTable g) id = statement? g' (nameTable g') id
  /-- Each statement stands in the modules of its usage. -/
  rendered : ∀ o u id, Goes g o u id → ∃ s, Pydantic.statement? g (nameTable g) id = some s ∧
    s ∈ (moduleOfUsage g o u).statements ∧ s ∈ (moduleOfUsage g' o u).statements
  statements_perm : ∀ o u,
    (moduleOfUsage g o u).statements.Perm (moduleOfUsage g' o u).statements

/-- Programs up to order come out alike. -/
theorem alike_of_sameUpToOrder (h : g.SameUpToOrder g') (hd : g.SameDeclarations g')
    (hg : g.Coherent) (hg' : g'.Coherent) : Alike g g' := by
  have hroles := Graph.roles?_classify_congr h hd
  have hnames : (nameTable g).nameOf = (nameTable g').nameOf := by
    funext id
    refine NameTable.nameOf_congr ?_ (declared_all_nodup hg) id
    refine (List.perm_ext_iff_of_nodup (declared_all_nodup hg) (declared_all_nodup hg')).mpr ?_
    intro other
    rw [mem_declared_all_iff hg, mem_declared_all_iff hg', hd.isDeclarable_eq]
  have hstatement := statement?_congr hd hnames
  have hgoes : ∀ o u id, Goes g o u id ↔ Goes g' o u id := by
    intro o u id
    have hcontains : g.classify.contains id = g'.classify.contains id := by
      rw [UsageMap.contains, UsageMap.contains, hroles]
    have husage : g.classify.usageOf id = g'.classify.usageOf id := by
      rw [UsageMap.usageOf, UsageMap.usageOf, hroles]
    have hdeclarable := congrFun hd.isDeclarable_eq id
    refine ⟨fun hgo => ⟨?_, ?_, ?_⟩, fun hgo => ⟨?_, ?_, ?_⟩⟩
    · exact hdeclarable ▸ hgo.declarable
    · exact hcontains ▸ hgo.used
    · exact husage ▸ hgo.usage
    · exact hdeclarable ▸ hgo.declarable
    · exact hcontains ▸ hgo.used
    · exact husage ▸ hgo.usage
  have hperm : ∀ o u, (moduleOfUsage g o u).statements.Perm (moduleOfUsage g' o u).statements :=
    fun o u => (renders_moduleOfUsage hg o u).statements_perm (renders_moduleOfUsage hg' o u)
      (hgoes o u) hstatement
  refine ⟨congrFun hd.declaration?, hroles, congrFun hnames, hgoes, congrFun hstatement, ?_, hperm⟩
  intro o u id hgo
  obtain ⟨s, hs, hstatement⟩ := (renders_moduleOfUsage hg o u).exists_statement hgo
  exact ⟨s, hstatement, hs, (hperm o u).mem_iff.mp hs⟩

/-- **The order of declarations does not matter.** Of two documents that differ only in the order
in which declarations and operations stand, so that every place holds the same entries, both can be
loaded or neither, and the programs come out alike. -/
theorem alike_of_reorders {doc doc' : Document} (h : doc.Reorders doc') :
    (∀ home ns around, doc.Scope home (ns :: around) → ∃ ns' around',
      doc'.Scope home (ns' :: around') ∧ ns.SameEntries ns') ∧
    ((∃ g, Graph.ofDocument doc = .ok g) ↔ ∃ g', Graph.ofDocument doc' = .ok g') ∧
    ∀ g g', Graph.ofDocument doc = .ok g → Graph.ofDocument doc' = .ok g' → Alike g g' := by
  refine ⟨fun home ns around => Load.scope_of_reorders h, ⟨?_, ?_⟩, fun g g' hg hg' => ?_⟩
  · rintro ⟨g, hg⟩
    obtain ⟨g', hg', _⟩ := Load.exists_ofDocument_of_reorders h hg
    exact ⟨g', hg'⟩
  · rintro ⟨g', hg'⟩
    obtain ⟨g, hg, _⟩ := Load.exists_ofDocument_of_reorders h.symm hg'
    exact ⟨g, hg⟩
  · obtain ⟨other, hother, hsame⟩ := Load.exists_ofDocument_of_reorders h hg
    rw [hg', Except.ok.injEq] at hother
    subst hother
    exact alike_of_sameUpToOrder hsame (hsame.sameDeclarations (Graph.ids_nodup_of_ofDocument hg))
      (Graph.coherent_of_ofDocument hg) (Graph.coherent_of_ofDocument hg')

/-- Pets and their owners, an owner before what it has. -/
def owners : Document :=
  { root :=
      { name := ""
        models := [⟨"Owner", none, none, none, [⟨"pet", .ref "Pet", false, none, none, {}⟩], {}⟩,
          ⟨"Pet", none, none, none, [⟨"kind", .ref "Kind", false, some (.string "cat"), none, {}⟩],
            {}⟩]
        enums := [⟨"Kind", none, [⟨"cat", none⟩]⟩] }
    diagnostics := [] }

/-- The same the other way round. -/
def ownersLast : Document :=
  { root :=
      { name := ""
        models := [⟨"Pet", none, none, none,
            [⟨"kind", .ref "Kind", false, some (.string "cat"), none, {}⟩], {}⟩,
          ⟨"Owner", none, none, none, [⟨"pet", .ref "Pet", false, none, none, {}⟩], {}⟩]
        enums := [⟨"Kind", none, [⟨"cat", none⟩]⟩] }
    diagnostics := [] }

theorem alike_owners : owners.Reorders ownersLast ∧
    (∀ home ns around, owners.Scope home (ns :: around) → ∃ ns' around',
      ownersLast.Scope home (ns' :: around') ∧ ns.SameEntries ns') ∧
    ((∃ g, Graph.ofDocument owners = .ok g) ↔ ∃ g', Graph.ofDocument ownersLast = .ok g') ∧
    ∃ g g', Graph.ofDocument owners = .ok g ∧ Graph.ofDocument ownersLast = .ok g' ∧
      Alike g g' := by
  have hreorders : owners.Reorders ownersLast :=
    ⟨.intro ⟨rfl, rfl, rfl, rfl, .swap _ _ _, .refl _, .refl _, .refl _, .refl _, .nil⟩ .nil, rfl⟩
  have hg : Graph.ofDocument owners = .ok _ := rfl
  have hg' : Graph.ofDocument ownersLast = .ok _ := rfl
  obtain ⟨hplaces, hloads, halike⟩ := alike_of_reorders hreorders
  exact ⟨hreorders, hplaces, hloads, _, _, hg, hg', halike _ _ hg hg'⟩

end Pydantic

end ApiEmit
