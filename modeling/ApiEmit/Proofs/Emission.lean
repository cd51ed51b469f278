/-
ApiEmit.Proofs.Emission — every declaration is written once.

A declaration that can be written out is collected once, goes to the file of one usage, and has
one statement there. The three files hold nothing else: each is, from its first line to its last,
the imports and then one section for each of its declarations, under its Python name.
-/
import ApiEmit.Proofs.Aligned
import ApiEmit.Proofs.BaseOrder
import ApiEmit.Proofs.Keyed
import ApiEmit.Proofs.Loaded
import ApiEmit.Proofs.PrintedText
import ApiEmit.Proofs.Usage
import ApiEmit.Pydantic.Emission

namespace ApiEmit

/-! ## Collecting -/

namespace Graph

variable {g : Graph} {id : DeclId}

/-- What can be written out is a model, an enum or a union outside the reserved part. -/
theorem exists_of_isDeclarable (h : g.isDeclarable id = true) :
    id.isReserved = false ∧ ∃ d, g.declaration? id = some d ∧ d.kind ≠ .scalar := by
  unfold isDeclarable at h
  cases hd : g.declaration? id with
  | none => simp [hd] at h
  | some d =>
    rw [hd] at h
    cases d with
    | model m =>
      have hm := model?_eq_some_iff.mpr hd
      simp only [isStructural, hm, Option.isSome_some, Bool.true_and, Bool.not_eq_true',
        Bool.or_eq_false_iff] at h
      exact ⟨h.2, _, rfl, by simp [Declaration.kind]⟩
    | enum e => exact ⟨by simpa using h, _, rfl, by simp [Declaration.kind]⟩
    | union u => exact ⟨by simpa using h, _, rfl, by simp [Declaration.kind]⟩
    | scalar s => cases h

end Graph

namespace Pydantic

open Python (Import Statement)

variable {g : Graph} {o : Options} {id : DeclId}

/-- The declarations collected for a kind are those of the kind that can be written out. -/
theorem mem_declaredOf_iff (hg : g.Coherent) {names : Namespace → List String} {kind : Kind}
    (hnames : ∀ ns name, name ∈ names ns ↔ (name, kind) ∈ ns.declared) :
    id ∈ declaredOf g names ↔
      g.isDeclarable id = true ∧ ∃ d, g.declaration? id = some d ∧ d.kind = kind := by
  unfold declaredOf Graph.openNamespaces
  rw [List.mem_filter, List.mem_flatMap, hg.declared_iff]
  refine ⟨fun h => ?_, fun h => ?_⟩
  · obtain ⟨⟨ns, hns, hmem⟩, hdeclarable⟩ := h
    obtain ⟨name, hname, rfl⟩ := List.mem_map.mp hmem
    exact ⟨hdeclarable, ns, (List.mem_filter.mp hns).1, rfl, (hnames ns name).mp hname⟩
  · obtain ⟨hdeclarable, ns, hns, hid, hmem⟩ := h
    obtain ⟨home, name⟩ := id
    change ns.id = home at hid
    subst hid
    have hreserved : ns.id.isReserved = false := (Graph.exists_of_isDeclarable hdeclarable).1
    refine ⟨⟨ns, List.mem_filter.mpr ⟨hns, ?_⟩, ?_⟩, hdeclarable⟩
    · rw [hreserved]
      rfl
    · exact List.mem_map_of_mem ((hnames ns name).mpr hmem)

theorem declaredOf_nodup (hg : g.Coherent) {names : Namespace → List String}
    (hnames : ∀ ns, (names ns).Sublist (ns.declared.map (·.1))) : (declaredOf g names).Nodup := by
  apply List.Nodup.filter
  rw [List.nodup_flatMap]
  refine ⟨fun ns hns => ?_, ?_⟩
  · have hnodup := hg.names_nodup ns (List.mem_filter.mp hns).1
    refine (hnodup.sublist (hnames ns)).map ?_
    intro a b hab
    exact congrArg DeclId.name hab
  · have hpairwise := List.pairwise_map.mp hg.ids_nodup
    refine (hpairwise.sublist List.filter_sublist).imp ?_
    intro a b hne id ha hb
    obtain ⟨_, _, rfl⟩ := List.mem_map.mp ha
    obtain ⟨_, _, heq⟩ := List.mem_map.mp hb
    exact hne (congrArg DeclId.home heq).symm

theorem mem_models_iff (ns : Namespace) (name : String) :
    name ∈ ns.models ↔ (name, Kind.model) ∈ ns.declared := by
  simp [Namespace.declared]

theorem mem_enums_iff (ns : Namespace) (name : String) :
    name ∈ ns.enums ↔ (name, Kind.enum) ∈ ns.declared := by
  simp [Namespace.declared]

theorem mem_unions_iff (ns : Namespace) (name : String) :
    name ∈ ns.unions ↔ (name, Kind.union) ∈ ns.declared := by
  simp [Namespace.declared]

theorem declared_names (ns : Namespace) :
    ns.declared.map (·.1) = ns.models ++ ns.enums ++ ns.unions ++ ns.scalars := by
  simp [Namespace.declared, Function.comp_def]

/-- What is collected is what can be written out. -/
theorem mem_declared_all_iff (hg : g.Coherent) :
    id ∈ (declared g).all ↔ g.isDeclarable id = true := by
  unfold Declared.all declared
  simp only [List.mem_append, mem_declaredOf_iff hg mem_models_iff,
    mem_declaredOf_iff hg mem_enums_iff, mem_declaredOf_iff hg mem_unions_iff]
  refine ⟨fun h => ?_, fun h => ?_⟩
  · rcases h with (⟨h, _⟩ | ⟨h, _⟩) | ⟨h, _⟩ <;> exact h
  · obtain ⟨_, d, hd, hkind⟩ := Graph.exists_of_isDeclarable h
    cases d with
    | model m => exact .inl (.inl ⟨h, _, hd, rfl⟩)
    | enum e => exact .inl (.inr ⟨h, _, hd, rfl⟩)
    | union u => exact .inr ⟨h, _, hd, rfl⟩
    | scalar s => exact absurd rfl hkind

/-- A declaration is collected for one kind only. -/
theorem ne_of_kind_ne (hg : g.Coherent) {names names' : Namespace → List String} {kind kind' : Kind}
    (hnames : ∀ ns name, name ∈ names ns ↔ (name, kind) ∈ ns.declared)
    (hnames' : ∀ ns name, name ∈ names' ns ↔ (name, kind') ∈ ns.declared) (hne : kind ≠ kind')
    {other : DeclId} (h : id ∈ declaredOf g names) (h' : other ∈ declaredOf g names') :
    id ≠ other := by
  rintro rfl
  obtain ⟨_, d, hd, hkind⟩ := (mem_declaredOf_iff hg hnames).mp h
  obtain ⟨_, d', hd', hkind'⟩ := (mem_declaredOf_iff hg hnames').mp h'
  rw [hd, Option.some.injEq] at hd'
  exact hne (by rw [← hkind, ← hkind', hd'])

/-- Nothing is collected twice. -/
theorem declared_all_nodup (hg : g.Coherent) : (declared g).all.Nodup := by
  have hmodels : (declaredOf g (·.models)).Nodup := declaredOf_nodup hg fun ns => by
    rw [declared_names, List.append_assoc, List.append_assoc]
    exact List.sublist_append_left _ _
  have henums : (declaredOf g (·.enums)).Nodup := declaredOf_nodup hg fun ns => by
    rw [declared_names, List.append_assoc, List.append_assoc]
    exact (List.sublist_append_left _ _).trans (List.sublist_append_right _ _)
  have hunions : (declaredOf g (·.unions)).Nodup := declaredOf_nodup hg fun ns => by
    rw [declared_names, List.append_assoc]
    exact (List.sublist_append_left _ _).trans (List.sublist_append_right _ _)
  unfold Declared.all declared
  refine List.nodup_append.mpr ⟨List.nodup_append.mpr ⟨hmodels, henums, ?_⟩, hunions, ?_⟩
  · intro a ha b hb
    exact ne_of_kind_ne hg mem_models_iff mem_enums_iff nofun ha hb
  · intro a ha b hb
    rcases List.mem_append.mp ha with hmodel | henum
    · exact ne_of_kind_ne hg mem_models_iff mem_unions_iff nofun hmodel hb
    · exact ne_of_kind_ne hg mem_enums_iff mem_unions_iff nofun henum hb

/-! ## Statements of a module -/

/-- The Python declaration of a declaration; a scalar has none. -/
def statement? (g : Graph) (names : NameTable) (id : DeclId) : Option Statement :=
  match g.declaration? id with
  | some (.enum e) => some (.enum (enumDef (names.nameOf id) e))
  | some (.union u) => some (.alias (aliasDef g names (names.nameOf id) u))
  | some (.model m) => some (.model (classDef g names (names.nameOf id) m))
  | _ => none

/-- A module renders some declarations: each of them has one statement in it, in some order, and
no other statement is there. -/
def Renders (g : Graph) (names : NameTable) (m : Python.Module) (decls : DeclId → Prop) : Prop :=
  ∃ order : List DeclId, order.Nodup ∧ (∀ id, id ∈ order ↔ decls id) ∧
    m.statements.map some = order.map (statement? g names)

theorem Renders.exists_statement {names : NameTable} {m : Python.Module} {decls : DeclId → Prop}
    (h : Renders g names m decls) (hid : decls id) :
    ∃ s ∈ m.statements, statement? g names id = some s := by
  obtain ⟨order, _, hmem, hstatements⟩ := h
  have hin : statement? g names id ∈ m.statements.map some := by
    rw [hstatements]
    exact List.mem_map_of_mem ((hmem id).mpr hid)
  obtain ⟨s, hs, heq⟩ := List.mem_map.mp hin
  exact ⟨s, hs, heq.symm⟩

theorem Renders.exists_decl {names : NameTable} {m : Python.Module} {decls : DeclId → Prop}
    (h : Renders g names m decls) {s : Statement} (hs : s ∈ m.statements) :
    ∃ id, decls id ∧ statement? g names id = some s := by
  obtain ⟨order, _, hmem, hstatements⟩ := h
  have hin : some s ∈ order.map (statement? g names) := by
    rw [← hstatements]
    exact List.mem_map_of_mem hs
  obtain ⟨id, hid, heq⟩ := List.mem_map.mp hin
  exact ⟨id, (hmem id).mp hid, heq⟩

/-- The part of a module in which a statement stands. -/
def partOf : Statement → Nat
  | .enum _ => 0
  | .alias _ => 1
  | .model _ => 2

theorem enumStatement?_eq {names : NameTable} {statement : Statement}
    (h : enumStatement? g names id = some statement) :
    statement? g names id = some statement ∧ partOf statement = 0 := by
  obtain ⟨e, he, rfl⟩ := Option.map_eq_some_iff.mp h
  unfold statement?
  rw [Graph.enum?_eq_some_iff.mp he]
  exact ⟨rfl, rfl⟩

theorem aliasStatement?_eq {names : NameTable} {statement : Statement}
    (h : aliasStatement? g names id = some statement) :
    statement? g names id = some statement ∧ partOf statement = 1 := by
  obtain ⟨u, hu, rfl⟩ := Option.map_eq_some_iff.mp h
  unfold statement?
  rw [Graph.union?_eq_some_iff.mp hu]
  exact ⟨rfl, rfl⟩

theorem classStatement?_eq {names : NameTable} {statement : Statement}
    (h : classStatement? g names id = some statement) :
    statement? g names id = some statement ∧ partOf statement = 2 := by
  obtain ⟨m, hm, rfl⟩ := Option.map_eq_some_iff.mp h
  unfold statement?
  rw [Graph.model?_eq_some_iff.mp hm]
  exact ⟨rfl, rfl⟩

/-- A module has the statements of its declarations, and no others. -/
theorem mem_statements_iff {names : NameTable} {decls : List DeclId} {s : Statement} :
    s ∈ statements g names decls ↔ ∃ id ∈ decls, statement? g names id = some s := by
  simp only [statements, List.mem_append, List.mem_filterMap, mem_orderModels_iff]
  constructor
  · rintro ((⟨id, hid, hs⟩ | ⟨id, hid, hs⟩) | ⟨id, ⟨hid, _⟩, hs⟩)
    · exact ⟨id, hid, (enumStatement?_eq hs).1⟩
    · exact ⟨id, hid, (aliasStatement?_eq hs).1⟩
    · exact ⟨id, hid, (classStatement?_eq hs).1⟩
  · rintro ⟨id, hid, hs⟩
    unfold statement? at hs
    split at hs
    · rename_i e he
      refine .inl (.inl ⟨id, hid, ?_⟩)
      rw [enumStatement?, Graph.enum?_eq_some_iff.mpr he, ← hs]
      rfl
    · rename_i u hu
      refine .inl (.inr ⟨id, hid, ?_⟩)
      rw [aliasStatement?, Graph.union?_eq_some_iff.mpr hu, ← hs]
      rfl
    · rename_i m hm
      have hmodel := Graph.model?_eq_some_iff.mpr hm
      refine .inr ⟨id, ⟨hid, Option.isSome_of_eq_some hmodel⟩, ?_⟩
      rw [classStatement?, hmodel, ← hs]
      rfl
    · cases hs

/-- What some declarations are rendered to, where only some of them are. -/
theorem map_some_filterMap {render : DeclId → Option Statement} {names : NameTable}
    (h : ∀ id statement, render id = some statement → statement? g names id = some statement)
    (decls : List DeclId) :
    (decls.filterMap render).map some =
      (decls.filter fun id => (render id).isSome).map (statement? g names) := by
  induction decls with
  | nil => rfl
  | cons first rest ih =>
    cases hfirst : render first with
    | none => rw [List.filterMap_cons_none hfirst, List.filter_cons_of_neg (by simp [hfirst]), ih]
    | some statement =>
      rw [List.filterMap_cons_some hfirst, List.filter_cons_of_pos (by simp [hfirst]),
        List.map_cons, List.map_cons, ih, h first statement hfirst]

theorem exists_of_mem_filter {render : DeclId → Option Statement} {names : NameTable} {part : Nat}
    (h : ∀ id s, render id = some s → statement? g names id = some s ∧ partOf s = part)
    (ids : List DeclId) :
    ∀ id ∈ ids.filter fun id => (render id).isSome,
      ∃ s, statement? g names id = some s ∧ partOf s = part := by
  intro id hid
  obtain ⟨s, hs⟩ := Option.isSome_iff_exists.mp (List.mem_filter.mp hid).2
  exact ⟨s, h id s hs⟩

theorem isSome_of_isDeclarable (names : NameTable) (h : g.isDeclarable id = true) :
    (enumStatement? g names id).isSome = true ∨ (aliasStatement? g names id).isSome = true ∨
      ((g.model? id).isSome = true ∧ (classStatement? g names id).isSome = true) := by
  obtain ⟨_, d, hd, hkind⟩ := Graph.exists_of_isDeclarable h
  unfold enumStatement? aliasStatement? classStatement?
  simp only [Option.isSome_map]
  cases d with
  | model m =>
    rw [Graph.model?_eq_some_iff.mpr hd]
    exact .inr (.inr ⟨rfl, rfl⟩)
  | enum e =>
    rw [Graph.enum?_eq_some_iff.mpr hd]
    exact .inl rfl
  | union u =>
    rw [Graph.union?_eq_some_iff.mpr hd]
    exact .inr (.inl rfl)
  | scalar s => exact absurd rfl hkind

/-- A module of different declarations that can be written out renders them. -/
theorem renders_moduleOf (names : NameTable) {decls : List DeclId} (hnodup : decls.Nodup)
    (hdecls : ∀ id ∈ decls, g.isDeclarable id = true) :
    Renders g names (moduleOf g names decls) (· ∈ decls) := by
  let enums := decls.filter fun id => (enumStatement? g names id).isSome
  let unions := decls.filter fun id => (aliasStatement? g names id).isSome
  let models := (orderModels g decls).filter fun id => (classStatement? g names id).isSome
  have henums : ∀ id ∈ enums, _ := exists_of_mem_filter (fun _ _ => enumStatement?_eq) decls
  have hunions : ∀ id ∈ unions, _ := exists_of_mem_filter (fun _ _ => aliasStatement?_eq) decls
  have hmodels : ∀ id ∈ models, _ :=
    exists_of_mem_filter (fun _ _ => classStatement?_eq) (orderModels g decls)
  -- declarations with statements of different parts are different
  have hdifferent : ∀ {left right : List DeclId} {k k' : Nat}, k ≠ k' →
      (∀ id ∈ left, ∃ s, statement? g names id = some s ∧ partOf s = k) →
      (∀ id ∈ right, ∃ s, statement? g names id = some s ∧ partOf s = k') →
      ∀ a ∈ left, ∀ b ∈ right, a ≠ b := by
    intro left right k k' hne hleft hright a ha b hb hab
    obtain ⟨s, hs, hk⟩ := hleft a ha
    obtain ⟨s', hs', hk'⟩ := hright b hb
    rw [← hab, hs, Option.some.injEq] at hs'
    exact hne (by rw [← hk, ← hk', hs'])
  refine ⟨enums ++ unions ++ models, ?_, fun id => ⟨fun h => ?_, fun h => ?_⟩, ?_⟩
  · refine List.nodup_append.mpr ⟨List.nodup_append.mpr
      ⟨hnodup.filter _, hnodup.filter _, hdifferent (by decide) henums hunions⟩,
      (orderModels_nodup g decls).filter _, fun a ha b hb => ?_⟩
    rcases List.mem_append.mp ha with henum | hunion
    · exact hdifferent (by decide) henums hmodels a henum b hb
    · exact hdifferent (by decide) hunions hmodels a hunion b hb
  · rcases List.mem_append.mp h with h | hmodel
    · rcases List.mem_append.mp h with henum | hunion
      · exact (List.mem_filter.mp henum).1
      · exact (List.mem_filter.mp hunion).1
    · exact (mem_orderModels_iff.mp (List.mem_filter.mp hmodel).1).1
  · rw [List.mem_append, List.mem_append]
    rcases isSome_of_isDeclarable names (hdecls id h) with henum | hunion | ⟨hmodel, hclass⟩
    · exact .inl (.inl (List.mem_filter.mpr ⟨h, henum⟩))
    · exact .inl (.inr (List.mem_filter.mpr ⟨h, hunion⟩))
    · exact .inr (List.mem_filter.mpr ⟨mem_orderModels_iff.mpr ⟨h, hmodel⟩, hclass⟩)
  · unfold moduleOf statements
    rw [List.map_append, List.map_append, List.map_append, List.map_append,
      map_some_filterMap fun _ _ hs => (enumStatement?_eq hs).1,
      map_some_filterMap fun _ _ hs => (aliasStatement?_eq hs).1,
      map_some_filterMap fun _ _ hs => (classStatement?_eq hs).1]

/-- Enums come first, then aliases, then classes. -/
theorem pairwise_partOf (g : Graph) (names : NameTable) (decls : List DeclId) :
    (moduleOf g names decls).statements.Pairwise fun a b => partOf a ≤ partOf b := by
  have hpart : ∀ {render : DeclId → Option Statement} {k : Nat} (ids : List DeclId),
      (∀ id s, render id = some s → partOf s = k) → ∀ s ∈ ids.filterMap render, partOf s = k := by
    intro render k ids hrender s hs
    obtain ⟨id, _, hid⟩ := List.mem_filterMap.mp hs
    exact hrender id s hid
  have henums := hpart decls fun id s (h : enumStatement? g names id = some s) =>
    (enumStatement?_eq h).2
  have hunions := hpart decls fun id s (h : aliasStatement? g names id = some s) =>
    (aliasStatement?_eq h).2
  have hmodels := hpart (orderModels g decls) fun id s (h : classStatement? g names id = some s) =>
    (classStatement?_eq h).2
  have hsame : ∀ {k : Nat} {l : List Statement}, (∀ s ∈ l, partOf s = k) →
      l.Pairwise fun a b => partOf a ≤ partOf b := by
    intro k l hl
    refine List.pairwise_iff_forall_sublist.mpr fun {a b} hab => ?_
    have ha := hl a (hab.subset List.mem_cons_self)
    have hb := hl b (hab.subset (List.mem_cons_of_mem _ List.mem_cons_self))
    exact Nat.le_of_eq (ha.trans hb.symm)
  unfold moduleOf statements
  refine List.pairwise_append.mpr ⟨List.pairwise_append.mpr ⟨hsame henums, hsame hunions, ?_⟩,
    hsame hmodels, ?_⟩
  · intro a ha b hb
    rw [henums a ha, hunions b hb]
    exact Nat.zero_le 1
  · intro a ha b hb
    rw [hmodels b hb]
    rcases List.mem_append.mp ha with henum | hunion
    · rw [henums a henum]
      exact Nat.zero_le 2
    · rw [hunions a hunion]
      exact Nat.le_succ 1

/-! ## The text of a module -/

/-- The part of a module in which a declaration stands. -/
def partIn (g : Graph) (id : DeclId) : Nat :=
  match g.declaration? id with
  | some (.enum _) => 0
  | some (.union _) => 1
  | _ => 2

theorem partOf_eq_partIn {names : NameTable} {s : Statement}
    (h : statement? g names id = some s) : partOf s = partIn g id := by
  unfold statement? at h
  unfold partIn
  split at h <;> cases h <;> simp_all [partOf]

/-- What is printed for a declaration declares its Python name. -/
theorem declares_of_statement? {names : NameTable} {s : Statement} {text : String}
    (h : statement? g names id = some s) (htext : Python.Section s text) :
    Python.Declares (names.nameOf id) text := by
  unfold statement? at h
  split at h
  · cases h
    cases htext with
    | enum _ hclass => exact hclass.declares
  · cases h
    exact htext.declares_alias
  · cases h
    cases htext with
    | model _ hclass => exact hclass.declares
  · cases h

/-- A text renders some declarations: behind its imports each of them has one section, under its
Python name, enums before aliases before classes; and nothing else is there. -/
def RendersText (g : Graph) (names : NameTable) (text : String) (decls : DeclId → Prop) : Prop :=
  ∃ (order : List DeclId) (imports : List Import) (head sections : List String),
    order.Nodup ∧ (∀ id, id ∈ order ↔ decls id) ∧
    (order.Pairwise fun a b => partIn g a ≤ partIn g b) ∧
    Python.ImportSections imports head ∧
    List.Forall₂ (fun id part => Python.Declares (names.nameOf id) part ∧
      ∃ s, statement? g names id = some s ∧ Python.Section s part) order sections ∧
    Python.Separated "\n\n\n" "\n" (head ++ sections) text

/-- The text of a module renders what the module does. -/
theorem Renders.rendersText {names : NameTable} {m : Python.Module} {decls : DeclId → Prop}
    {text : String} (h : Renders g names m decls) (htext : Python.ModuleText m text)
    (hparts : m.statements.Pairwise fun a b => partOf a ≤ partOf b) :
    RendersText g names text decls := by
  obtain ⟨order, hnodup, hmem, hstatements⟩ := h
  obtain ⟨hhead, hsections, htext⟩ := htext
  have hstatement : List.Forall₂ (fun id s => statement? g names id = some s) order
      m.statements := by
    have heq : List.Forall₂ (· = ·) (order.map (statement? g names)) (m.statements.map some) :=
      List.forall₂_eq_eq_eq ▸ hstatements.symm
    rwa [List.forall₂_map_left_iff, List.forall₂_map_right_iff] at heq
  have horder : order.map (partIn g) = m.statements.map partOf := by
    apply Aligned.map_eq _ hstatement
    exact fun id s hs => (partOf_eq_partIn hs).symm
  refine ⟨order, m.imports, _, _, hnodup, hmem, ?_, hhead, ?_, htext⟩
  · rw [← List.pairwise_map, horder, List.pairwise_map]
    exact hparts
  · exact (Aligned.trans hstatement hsections).imp fun id part ⟨s, hs, hpart⟩ =>
      ⟨declares_of_statement? hs hpart, s, hs, hpart⟩

/-! ## Files -/

/-- A declaration goes to the file of a usage: it can be written out, it is in use where that is
asked for, and it has the usage. -/
structure Goes (g : Graph) (o : Options) (u : Usage) (id : DeclId) : Prop where
  declarable : g.isDeclarable id = true
  used : o.constrainToUsed = true → g.classify.contains id = true
  usage : g.classify.usageOf id = u

theorem mem_bucket_iff (hg : g.Coherent) {u : Usage} : id ∈ bucket g o u ↔ Goes g o u id := by
  unfold bucket selected
  rw [List.mem_filter, List.mem_filter, mem_declared_all_iff hg, beq_iff_eq]
  refine ⟨fun h => ⟨h.1.1, fun hused => ?_, h.2⟩, fun h => ⟨⟨h.declarable, ?_⟩, h.usage⟩⟩
  · simpa [hused] using h.1.2
  · cases hused : o.constrainToUsed with
    | true => simpa using h.used hused
    | false => rfl

theorem bucket_nodup (hg : g.Coherent) (o : Options) (u : Usage) : (bucket g o u).Nodup :=
  ((declared_all_nodup hg).filter _).filter _

/-- The module for a usage, whether or not it is written. -/
def moduleOfUsage (g : Graph) (o : Options) (u : Usage) : Python.Module :=
  moduleOf g (nameTable g) (bucket g o u)

/-- The module for a usage renders what goes there. -/
theorem renders_moduleOfUsage (hg : g.Coherent) (o : Options) (u : Usage) :
    Renders g (nameTable g) (moduleOfUsage g o u) (Goes g o u) := by
  obtain ⟨order, hnodup, hmem, hstatements⟩ :=
    renders_moduleOf (nameTable g) (bucket_nodup hg o u) fun id hid =>
      ((mem_bucket_iff hg).mp hid).declarable
  exact ⟨order, hnodup, fun id => (hmem id).trans (mem_bucket_iff hg), hstatements⟩

theorem moduleFor?_eq_some_iff {u : Usage} {entry : String × Python.Module} :
    moduleFor? g o u = some entry ↔
      bucket g o u ≠ [] ∧ entry = (o.moduleFor u, moduleOfUsage g o u) := by
  unfold moduleFor? moduleOfUsage
  cases bucket g o u with
  | nil => simp
  | cons => simp [eq_comm]

/-- Options are all accepted only if no two have one name. -/
theorem nodup_of_firstTaken? {earlier names : List (String × String)}
    (h : Options.firstTaken? earlier names = none) (hearlier : (earlier.map (·.2)).Nodup) :
    ((earlier ++ names).map (·.2)).Nodup := by
  induction names generalizing earlier with
  | nil => simpa using hearlier
  | cons first rest ih =>
    obtain ⟨option, name⟩ := first
    rw [Options.firstTaken?] at h
    cases hfind : earlier.find? (·.2 == name) with
    | some other =>
      rw [hfind] at h
      cases h
    | none =>
      rw [hfind] at h
      have hnew : ∀ entry ∈ earlier, entry.2 ≠ name := by simpa using hfind
      rw [List.append_cons]
      apply ih h
      rw [List.map_append, List.nodup_append]
      refine ⟨hearlier, List.nodup_singleton name, fun a ha b hb => ?_⟩
      obtain ⟨entry, hentry, rfl⟩ := List.mem_map.mp ha
      rw [List.mem_singleton.mp hb]
      exact hnew entry hentry

/-- Modules of different usages have different names. -/
theorem moduleFor_injective (ho : o.validate = .ok ()) {u v : Usage}
    (h : o.moduleFor u = o.moduleFor v) : u = v := by
  have hdistinct : (o.moduleNames.map (·.2)).Nodup := by
    unfold Options.validate at ho
    cases hor : (Options.firstInvalid? o.moduleNames).or (Options.firstTaken? [] o.moduleNames) with
    | some error =>
      rw [hor] at ho
      cases ho
    | none =>
      exact nodup_of_firstTaken? (Option.or_eq_none_iff.mp hor).2 List.nodup_nil
  have hall : (o.moduleNames.map (·.2)) = [Usage.input, .output, .roundtrip].map o.moduleFor := rfl
  rw [hall] at hdistinct
  exact List.inj_on_of_nodup_map hdistinct (by cases u <;> simp) (by cases v <;> simp) h

theorem mem_modules_iff {entry : String × Python.Module} :
    entry ∈ modules g o ↔ g.hasErrors = false ∧
      ∃ u, bucket g o u ≠ [] ∧ entry = (o.moduleFor u, moduleOfUsage g o u) := by
  unfold modules
  cases g.hasErrors with
  | true => simp
  | false =>
    rw [if_neg (by decide), List.mem_filterMap]
    simp only [moduleFor?_eq_some_iff, true_and]
    refine ⟨fun h => ?_, fun h => ?_⟩
    · obtain ⟨u, _, h⟩ := h
      exact ⟨u, h⟩
    · obtain ⟨u, h⟩ := h
      exact ⟨u, by cases u <;> simp, h⟩

theorem fileName_injective {name other : String} (h : fileName name = fileName other) :
    name = other := by
  exact (String.append_left_inj ".py").mp h

theorem fileNames_nodup (ho : o.validate = .ok ()) (g : Graph) :
    ((modules g o).map fun entry => fileName entry.1).Nodup := by
  unfold modules
  split
  · exact List.nodup_nil
  · rw [List.map_filterMap]
    refine List.Nodup.filterMap ?_ (by decide : [Usage.input, .output, .roundtrip].Nodup)
    intro u v name hu hv
    obtain ⟨entry, hentry, rfl⟩ := Option.map_eq_some_iff.mp hu
    obtain ⟨entry', hentry', heq⟩ := Option.map_eq_some_iff.mp hv
    obtain ⟨_, rfl⟩ := moduleFor?_eq_some_iff.mp hentry
    obtain ⟨_, rfl⟩ := moduleFor?_eq_some_iff.mp hentry'
    exact moduleFor_injective ho (fileName_injective heq).symm

/-- Where the options are accepted, no file takes the place of another. -/
theorem files_eq (ho : o.validate = .ok ()) (g : Graph) :
    files g o = (modules g o).map fun (name, m) => (fileName name, m.text) := by
  apply Keyed.ofList_of_nodup
  rw [List.map_map]
  exact fileNames_nodup ho g

/-! ## Every declaration once -/

/-- The files of a program hold each of its declarations once. -/
structure EmitsOnce (g : Graph) (o : Options) : Prop where
  /-- Nothing is collected twice. -/
  collected_nodup : (declared g).all.Nodup
  /-- What is collected is what can be written out. -/
  collected_iff : ∀ id, id ∈ (declared g).all ↔ g.isDeclarable id = true
  /-- What has a usage is collected. -/
  collected_of_used : ∀ id, g.classify.contains id = true → id ∈ (declared g).all
  /-- What has no usage makes a round trip. -/
  usage_of_unused : ∀ id, g.classify.contains id = false → g.classify.usageOf id = .roundtrip
  /-- No two files have one name. -/
  names_nodup : ((files g o).map (·.1)).Nodup
  /-- No two usages have one file. -/
  usages_apart : ∀ u v, fileName (o.moduleFor u) = fileName (o.moduleFor v) → u = v
  /-- Every file is that of a usage. -/
  usage_of_file : ∀ file ∈ files g o, ∃ u, file.1 = fileName (o.moduleFor u)
  /-- The file of a usage is there if something goes to it. -/
  file_iff : ∀ u, (∃ text, (fileName (o.moduleFor u), text) ∈ files g o) ↔ ∃ id, Goes g o u id
  /-- It is the text of a module, by the rules for such texts, and the module holds what goes to the
  file, each once, and enums before aliases before classes. -/
  renders : ∀ u text, (fileName (o.moduleFor u), text) ∈ files g o →
    ∃ m : Python.Module, text = m.text ∧ Python.ModuleText m text ∧
      Renders g (nameTable g) m (Goes g o u) ∧
      m.statements.Pairwise fun a b => partOf a ≤ partOf b
  /-- So the text itself renders what goes to the file, each in one section under its Python name,
  and nothing else. -/
  renders_text : ∀ u text, (fileName (o.moduleFor u), text) ∈ files g o →
    RendersText g (nameTable g) text (Goes g o u)

theorem mem_files_iff (hg : g.Coherent) (he : g.hasErrors = false) (ho : o.validate = .ok ())
    (file : String × String) :
    file ∈ files g o ↔ ∃ u, (∃ id, Goes g o u id) ∧
      file = (fileName (o.moduleFor u), (moduleOfUsage g o u).text) := by
  have hbucket : ∀ u, bucket g o u ≠ [] ↔ ∃ id, Goes g o u id := fun u => by
    simp only [← mem_bucket_iff hg]
    exact ⟨List.exists_mem_of_ne_nil _, fun ⟨_, hid⟩ => List.ne_nil_of_mem hid⟩
  rw [files_eq ho, List.mem_map]
  simp only [mem_modules_iff, hbucket]
  refine ⟨fun h => ?_, fun h => ?_⟩
  · obtain ⟨_, ⟨_, u, hid, rfl⟩, rfl⟩ := h
    exact ⟨u, hid, rfl⟩
  · obtain ⟨u, hid, rfl⟩ := h
    exact ⟨_, ⟨he, u, hid, rfl⟩, rfl⟩

/-- **No declaration is lost or written twice**: where a loaded program has no errors and the
options are accepted, the text of each file holds each declaration that is to be written there in
one section, and nothing else. -/
theorem emits_once {doc : Document} (hg : Graph.ofDocument doc = .ok g)
    (he : g.hasErrors = false) (ho : o.validate = .ok ()) : EmitsOnce g o := by
  have hcoherent := Graph.coherent_of_ofDocument hg
  have hfiles := mem_files_iff hcoherent he ho
  have hapart : ∀ u v, fileName (o.moduleFor u) = fileName (o.moduleFor v) → u = v :=
    fun u v h => moduleFor_injective ho (fileName_injective h)
  have hrenders : ∀ u text, (fileName (o.moduleFor u), text) ∈ files g o →
      text = (moduleOfUsage g o u).text ∧ Python.ModuleText (moduleOfUsage g o u) text := by
    intro u text h
    obtain ⟨v, ⟨id, hid⟩, heq⟩ := (hfiles _).mp h
    obtain rfl := hapart u v (congrArg Prod.fst heq)
    obtain rfl : text = (moduleOfUsage g o u).text := congrArg Prod.snd heq
    obtain ⟨s, hs, _⟩ := (renders_moduleOfUsage hcoherent o u).exists_statement hid
    exact ⟨rfl, Python.moduleText_text (List.ne_nil_of_mem hs)⟩
  refine
    { collected_nodup := declared_all_nodup hcoherent
      collected_iff := fun id => mem_declared_all_iff hcoherent
      collected_of_used := fun id hused => ?_
      usage_of_unused := fun id hunused => ?_
      names_nodup := ?_
      usages_apart := hapart
      usage_of_file := fun file hfile => ?_
      file_iff := fun u => ⟨fun h => ?_, fun h => ?_⟩
      renders := fun u text h => ?_
      renders_text := fun u text h => ?_ }
  · obtain ⟨role, hrole⟩ := Graph.contains_classify_iff.mp hused
    have htagged := Graph.isTagged_iff.mpr (Graph.hasRole_classify_iff.mp hrole).1
    rw [mem_declared_all_iff hcoherent, ← Graph.isTagged_eq_isDeclarable]
    exact htagged
  · have hnone : g.classify.roles? id = none := by simpa [UsageMap.contains] using hunused
    unfold UsageMap.usageOf
    rw [hnone]
    rfl
  · rw [files_eq ho, List.map_map]
    exact fileNames_nodup ho g
  · obtain ⟨u, _, rfl⟩ := (hfiles file).mp hfile
    exact ⟨u, rfl⟩
  · obtain ⟨text, htext⟩ := h
    obtain ⟨v, hid, heq⟩ := (hfiles _).mp htext
    rw [hapart u v (congrArg Prod.fst heq)]
    exact hid
  · exact ⟨_, (hfiles _).mpr ⟨u, h, rfl⟩⟩
  · exact ⟨moduleOfUsage g o u, (hrenders u text h).1, (hrenders u text h).2,
      renders_moduleOfUsage hcoherent o u, pairwise_partOf g _ _⟩
  · exact (renders_moduleOfUsage hcoherent o u).rendersText (hrenders u text h).2
      (pairwise_partOf g _ _)

/-- A program of an enum and a model with a property of it. -/
def pets : Document :=
  { root :=
      { name := ""
        enums := [⟨"Kind", none, [⟨"cat", none⟩, ⟨"dog", none⟩]⟩]
        models := [⟨"Pet", none, none, none, [⟨"kind", .ref "Kind", false, none, none, {}⟩], {}⟩] }
    diagnostics := [] }

theorem emits_once_pets :
    ∃ g, Graph.ofDocument pets = .ok g ∧ g.hasErrors = false ∧ Options.validate {} = .ok () ∧
      EmitsOnce g {} := by
  have hg : Graph.ofDocument pets = .ok _ := rfl
  exact ⟨_, hg, rfl, rfl, emits_once hg rfl rfl⟩

end Pydantic

end ApiEmit
