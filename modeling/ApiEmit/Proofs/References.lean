/-
ApiEmit.Proofs.References — what the modules refer to is in the modules.

`Refers` says which declarations a type hint refers to by name, read off the type: it stops at
declared models and enums and looks into unions and maps. All of these steps are steps that the
walk over operations takes too, so what a declaration in use refers to is in use itself
(`Mentions.reaches`), and what can be referred to by name can be written out.
-/
import ApiEmit.Proofs.Emission

namespace ApiEmit

/-! ## What types refer to -/

namespace Graph

variable {g : Graph}

/-- The type hint of a type refers to a declaration by name. -/
inductive Refers (g : Graph) : Ty → DeclId → Prop
  | element {t : Ty} {target : DeclId} (h : Refers g t target) : Refers g (.array t) target
  | value {t : Ty} {target : DeclId} (h : Refers g t target) : Refers g (.record t) target
  | alternative {ts : List Ty} {t : Ty} {target : DeclId} (ht : t ∈ ts) (h : Refers g t target) :
      Refers g (.union ts) target
  | variant {id target : DeclId} {u : UnionDecl} {v : Variant} (hu : g.union? id = some u)
      (hv : v ∈ u.variants) (h : Refers g v.type target) : Refers g (.ref id) target
  | map {id target : DeclId} {t : Ty} (hmap : g.mapValue? (.ref id) = some t)
      (h : Refers g t target) : Refers g (.ref id) target
  | enum {id : DeclId} {e : EnumDecl} (he : g.enum? id = some e) (hn : id.name ≠ "") :
      Refers g (.ref id) id
  | model {id : DeclId} {m : Model} (hm : g.model? id = some m)
      (hmap : g.mapValue? (.ref id) = none) (hs : g.isStructural id = false) : Refers g (.ref id) id

/-- The Python declaration of a declaration refers to another by name. -/
inductive Mentions (g : Graph) (id : DeclId) : DeclId → Prop
  | property {m : Model} {p : Property} {target : DeclId} (hm : g.model? id = some m)
      (hp : p ∈ m.properties) (h : g.Refers p.type target) : Mentions g id target
  | variant {u : UnionDecl} {v : Variant} {target : DeclId} (hu : g.union? id = some u)
      (hv : v ∈ u.variants) (h : g.Refers v.type target) : Mentions g id target
  | base {m : Model} {target : DeclId} (hm : g.model? id = some m) (hb : m.base = some target)
      (hs : g.isStructural target = false) : Mentions g id target

/-- Nothing but scalars is declared in the reserved part of the tree. -/
def Open (g : Graph) : Prop :=
  ∀ id d, g.declaration? id = some d → d.kind ≠ .scalar → id.isReserved = false

theorem exists_indexer_of_mapValue? {id : DeclId} {t : Ty} (h : g.mapValue? (.ref id) = some t) :
    ∃ m, g.model? id = some m ∧ m.indexer = some t := by
  unfold mapValue? at h
  dsimp only at h
  split at h
  · exact Option.bind_eq_some_iff.mp h
  · cases h

/-- Type hints look nowhere that the walk does not go. -/
theorem Refers.reaches (hopen : g.Open) {t : Ty} {target : DeclId} (h : g.Refers t target) :
    g.Reaches t (.ref target) := by
  induction h with
  | element _ ih => exact .head (.element _) ih
  | value _ ih => exact .head (.value _) ih
  | alternative ht _ ih => exact .head (.alternative ht) ih
  | variant hu hv _ ih =>
    have hreserved := hopen _ _ (union?_eq_some_iff.mp hu) nofun
    exact .head (.variant hu hreserved hv) ih
  | map hmap _ ih =>
    obtain ⟨m, hm, hindexer⟩ := exists_indexer_of_mapValue? hmap
    exact .head (.indexer hm hindexer) ih
  | enum | model => exact .refl

/-- What a declaration mentions, it leads to. -/
theorem Mentions.reaches (hopen : g.Open) {id target : DeclId} (h : g.Mentions id target) :
    g.Reaches (.ref id) (.ref target) := by
  cases h with
  | property hm hp h => exact .head (.property hm hp) (h.reaches hopen)
  | variant hu hv h =>
    have hreserved := hopen _ _ (union?_eq_some_iff.mp hu) nofun
    exact .head (.variant hu hreserved hv) (h.reaches hopen)
  | base hm hb _ => exact .single (.base hm hb)

theorem isDeclarable_of_enum (hopen : g.Open) {id : DeclId} {e : EnumDecl}
    (he : g.enum? id = some e) : g.isDeclarable id = true := by
  rw [isDeclarable_eq_of_enum he, hopen _ _ (enum?_eq_some_iff.mp he) nofun]
  rfl

theorem isDeclarable_of_model {id : DeclId} {m : Model} (hm : g.model? id = some m)
    (hs : g.isStructural id = false) : g.isDeclarable id = true := by
  rw [isDeclarable_eq_of_model hm, hs]
  rfl

theorem Refers.isDeclarable (hopen : g.Open) {t : Ty} {target : DeclId} (h : g.Refers t target) :
    g.isDeclarable target = true := by
  induction h with
  | element _ ih | value _ ih | alternative _ _ ih | variant _ _ _ ih | map _ _ ih => exact ih
  | enum he _ => exact isDeclarable_of_enum hopen he
  | model hm _ hs => exact isDeclarable_of_model hm hs

/-- What is mentioned can be written out. -/
theorem Mentions.isDeclarable (hg : g.Coherent) (hopen : g.Open) {id target : DeclId}
    (h : g.Mentions id target) : g.isDeclarable target = true := by
  cases h with
  | property _ _ h | variant _ _ h => exact h.isDeclarable hopen
  | base hm hb hs =>
    obtain ⟨b, hbase⟩ := hg.base_model _ _ _ hm hb
    exact isDeclarable_of_model hbase hs

/-- What something in use mentions is in use. -/
theorem Mentions.used (hg : g.Coherent) (hopen : g.Open) {id target : DeclId}
    (h : g.Mentions id target) (hused : g.classify.contains id = true) :
    g.classify.contains target = true := by
  obtain ⟨role, hrole⟩ := contains_classify_iff.mp hused
  obtain ⟨_, op, t, hop, ht, hreach⟩ := hasRole_classify_iff.mp hrole
  have htarget : g.Taggable target := by
    rw [← isTagged_iff, isTagged_eq_isDeclarable]
    exact h.isDeclarable hg hopen
  refine contains_classify_iff.mpr ⟨role, hasRole_classify_iff.mpr ⟨htarget, op, t, hop, ht, ?_⟩⟩
  exact hreach.trans (h.reaches hopen)

end Graph

/-! ## What type hints refer to -/

namespace Pydantic

open Python (TypeHint Statement)

variable {g : Graph} {names : NameTable} {name : String}

@[simp]
theorem forward_mem_primitive (p : Python.Primitive) :
    TypeHint.forward name ∈ (TypeHint.primitive p).walk ↔ False := by
  simp [TypeHint.walk]

@[simp]
theorem forward_mem_any : TypeHint.forward name ∈ TypeHint.any.walk ↔ False :=
  forward_mem_primitive _

@[simp]
theorem forward_mem_none : TypeHint.forward name ∈ TypeHint.none.walk ↔ False := by
  simp [TypeHint.walk]

@[simp]
theorem forward_mem_forward (other : String) :
    TypeHint.forward name ∈ (TypeHint.forward other).walk ↔ name = other := by
  simp [TypeHint.walk]

@[simp]
theorem forward_mem_list (item : TypeHint) :
    TypeHint.forward name ∈ (TypeHint.list item).walk ↔ TypeHint.forward name ∈ item.walk := by
  simp [TypeHint.walk]

@[simp]
theorem forward_mem_dict (value : TypeHint) :
    TypeHint.forward name ∈ (TypeHint.dict value).walk ↔ TypeHint.forward name ∈ value.walk := by
  simp [TypeHint.walk]

@[simp]
theorem forward_mem_optional (item : TypeHint) :
    TypeHint.forward name ∈ (TypeHint.optional item).walk ↔
      TypeHint.forward name ∈ item.walk := by
  simp [TypeHint.walk]

theorem mem_walkAll_iff {a : TypeHint} {hints : List TypeHint} :
    a ∈ TypeHint.walkAll hints ↔ ∃ hint ∈ hints, a ∈ hint.walk := by
  induction hints with
  | nil => simp [TypeHint.walkAll]
  | cons first rest ih =>
    rw [TypeHint.walkAll, List.mem_append, ih]
    simp

@[simp]
theorem forward_mem_union (items : List TypeHint) :
    TypeHint.forward name ∈ (TypeHint.union items).walk ↔
      ∃ item ∈ items, TypeHint.forward name ∈ item.walk := by
  simp [TypeHint.walk, mem_walkAll_iff]

/-- A choice refers to what its items refer to. -/
theorem forward_mem_choice {hints : List TypeHint}
    (h : TypeHint.forward name ∈ (choice hints).walk) :
    ∃ hint ∈ hints, TypeHint.forward name ∈ hint.walk := by
  unfold choice at h
  split at h
  · simp at h
  · exact ⟨_, List.mem_singleton_self _, h⟩
  · exact (forward_mem_union _).mp h

/-- Each of some type hints is that of one of the types. -/
theorem exists_of_annotateAll {annotate : Ty → References → Option (TypeHint × References)}
    {types : List Ty} {refs refs' : References} {hints : List TypeHint}
    (h : annotateAll annotate types refs = some (hints, refs')) {hint : TypeHint}
    (hmem : hint ∈ hints) :
    ∃ t ∈ types, ∃ before after, annotate t before = some (hint, after) := by
  induction types generalizing refs hints with
  | nil =>
    cases h
    cases hmem
  | cons first rest ih =>
    rw [annotateAll] at h
    cases hfirst : annotate first refs with
    | none =>
      rw [hfirst] at h
      cases h
    | some result =>
      obtain ⟨a, between⟩ := result
      rw [hfirst] at h
      dsimp only at h
      cases hrest : annotateAll annotate rest between with
      | none =>
        rw [hrest] at h
        cases h
      | some results =>
        rw [hrest] at h
        cases h
        rcases List.mem_cons.mp hmem with rfl | hmem
        · exact ⟨first, List.mem_cons_self, refs, between, hfirst⟩
        · obtain ⟨t, ht, before, after, hannotate⟩ := ih hrest hmem
          exact ⟨t, List.mem_cons_of_mem _ ht, before, after, hannotate⟩

/-- Scalars are not referred to by name. -/
theorem forward_not_mem_scalarHint (id : DeclId) :
    TypeHint.forward name ∉ (scalarHint g id).walk := by
  unfold scalarHint
  cases (g.scalarChain id).findSome? fun id => scalarPrimitive? id.name with
  | none => simp
  | some p => simp

/-- The forward references in the type hint of a type are the names of what the type refers to. -/
def Faithful (g : Graph) (names : NameTable)
    (annotate : Ty → References → Option (TypeHint × References)) : Prop :=
  ∀ t refs hint refs', annotate t refs = some (hint, refs') →
    ∀ name, TypeHint.forward name ∈ hint.walk →
      ∃ target, g.Refers t target ∧ names.nameOf target = name

theorem Faithful.choice {annotate : Ty → References → Option (TypeHint × References)}
    (hf : Faithful g names annotate) {types : List Ty} {refs refs' : References}
    {hints : List TypeHint} (h : annotateAll annotate types refs = some (hints, refs'))
    (hname : TypeHint.forward name ∈ (Pydantic.choice hints).walk) :
    ∃ t ∈ types, ∃ target, g.Refers t target ∧ names.nameOf target = name := by
  obtain ⟨hint, hmem, hname⟩ := forward_mem_choice hname
  obtain ⟨t, ht, before, after, hannotate⟩ := exists_of_annotateAll h hmem
  exact ⟨t, ht, hf _ _ _ _ hannotate _ hname⟩

/-- A reference to a model: a map is taken apart, and any other model is named unless it cannot
be told from an inline one. -/
theorem Faithful.model {depth : Nat} (hf : Faithful g names (annotate? g names depth))
    {id : DeclId} {m : Model} (hm : g.model? id = some m) {refs refs' : References}
    {hint : TypeHint} (h : annotate? g names (depth + 1) (.ref id) refs = some (hint, refs'))
    (hname : TypeHint.forward name ∈ hint.walk) :
    ∃ target, g.Refers (.ref id) target ∧ names.nameOf target = name := by
  rw [annotate?, Graph.model?_eq_some_iff.mp hm] at h
  dsimp only at h
  cases hmap : g.mapValue? (.ref id) with
  | some value =>
    rw [hmap] at h
    obtain ⟨⟨a, after⟩, ha, heq⟩ := Option.map_eq_some_iff.mp h
    cases heq
    obtain ⟨target, htarget, rfl⟩ := hf _ _ _ _ ha _ ((forward_mem_dict a).mp hname)
    exact ⟨target, .map hmap htarget, rfl⟩
  | none =>
    rw [hmap] at h
    dsimp only at h
    cases hs : g.isStructural id with
    | true =>
      rw [hs] at h
      cases h
      simp at hname
    | false =>
      rw [hs] at h
      cases h
      rw [forward_mem_forward] at hname
      exact ⟨id, .model hm hmap hs, hname.symm⟩

/-- A reference to any declaration: scalars and what is not declared are not named, enums and
models are, and unions are taken apart. -/
theorem Faithful.ref {depth : Nat} (hf : Faithful g names (annotate? g names depth)) {id : DeclId}
    {refs refs' : References} {hint : TypeHint}
    (h : annotate? g names (depth + 1) (.ref id) refs = some (hint, refs'))
    (hname : TypeHint.forward name ∈ hint.walk) :
    ∃ target, g.Refers (.ref id) target ∧ names.nameOf target = name := by
  cases hd : g.declaration? id with
  | none =>
    rw [annotate?, hd] at h
    cases h
    simp at hname
  | some d =>
    cases d with
    | model m => exact hf.model (Graph.model?_eq_some_iff.mpr hd) h hname
    | scalar s =>
      rw [annotate?, hd] at h
      cases h
      exact absurd hname (forward_not_mem_scalarHint id)
    | enum e =>
      rw [annotate?, hd] at h
      dsimp only at h
      split at h
      · cases h
        simp at hname
      · rename_i hn
        cases h
        rw [forward_mem_forward] at hname
        exact ⟨id, .enum (Graph.enum?_eq_some_iff.mpr hd) hn, hname.symm⟩
    | union u =>
      rw [annotate?, hd] at h
      obtain ⟨⟨hints, after⟩, hall, heq⟩ := Option.map_eq_some_iff.mp h
      cases heq
      obtain ⟨t, ht, target, htarget, rfl⟩ := hf.choice hall hname
      obtain ⟨v, hv, rfl⟩ := List.mem_map.mp ht
      exact ⟨target, .variant (Graph.union?_eq_some_iff.mpr hd) hv htarget, rfl⟩

theorem Faithful.succ {depth : Nat} (hf : Faithful g names (annotate? g names depth)) :
    Faithful g names (annotate? g names (depth + 1)) := by
  intro t refs hint refs' h name hname
  cases t with
  | ref id => exact hf.ref h hname
  | array element =>
    obtain ⟨⟨a, after⟩, ha, heq⟩ := Option.map_eq_some_iff.mp h
    cases heq
    obtain ⟨target, htarget, rfl⟩ := hf _ _ _ _ ha _ ((forward_mem_list a).mp hname)
    exact ⟨target, .element htarget, rfl⟩
  | record value =>
    obtain ⟨⟨a, after⟩, ha, heq⟩ := Option.map_eq_some_iff.mp h
    cases heq
    obtain ⟨target, htarget, rfl⟩ := hf _ _ _ _ ha _ ((forward_mem_dict a).mp hname)
    exact ⟨target, .value htarget, rfl⟩
  | union variants =>
    obtain ⟨⟨hints, after⟩, hall, heq⟩ := Option.map_eq_some_iff.mp h
    cases heq
    obtain ⟨t, ht, target, htarget, rfl⟩ := hf.choice hall hname
    exact ⟨target, .alternative ht htarget, rfl⟩
  | model | string | number | boolean =>
    cases h
    simp at hname
  | intrinsic i =>
    cases i <;> cases h <;> simp at hname

/-- Type hints of any depth are faithful. -/
theorem faithful_annotate? (g : Graph) (names : NameTable) (depth : Nat) :
    Faithful g names (annotate? g names depth) := by
  induction depth with
  | zero =>
    intro t refs hint refs' h
    cases h
  | succ depth ih => exact ih.succ

theorem exists_of_hintOf {t : Ty} (h : TypeHint.forward name ∈ (hintOf g names t).walk) :
    ∃ target, g.Refers t target ∧ names.nameOf target = name := by
  unfold hintOf annotate at h
  cases hannotate : annotate? g names (t.size + g.size + 1) t [] with
  | none => simp [hannotate] at h
  | some result =>
    obtain ⟨hint, refs⟩ := result
    rw [hannotate] at h
    exact faithful_annotate? g names _ _ _ _ _ hannotate _ h

/-! ## What statements refer to -/

/-- A statement refers to a name: by a forward reference at any depth of a type hint, or by a base
that is not the base of all models. -/
inductive RefersTo : Statement → String → Prop
  | hint {s : Statement} {name : String} (h : TypeHint.forward name ∈ statementHints s) :
      RefersTo s name
  | base {c : Python.ClassDef} (h : c.base ≠ rootBase) : RefersTo (.model c) c.base

/-- The name that a statement declares. -/
def statementName : Statement → String
  | .enum e => e.name
  | .alias a => a.name
  | .model c => c.name

variable {id : DeclId} {s : Statement}

theorem statementName_eq (h : statement? g names id = some s) :
    statementName s = names.nameOf id := by
  unfold statement? at h
  split at h <;> cases h <;> rfl

/-- The names that the alias of a union refers to. -/
theorem mentions_of_alias {u : UnionDecl} (hu : g.union? id = some u)
    (h : RefersTo (.alias (aliasDef g names (names.nameOf id) u)) name) :
    ∃ target, g.Mentions id target ∧ names.nameOf target = name := by
  cases h with
  | hint h =>
    change TypeHint.forward name ∈ (aliasDef g names (names.nameOf id) u).value.walk at h
    unfold aliasDef at h
    dsimp only at h
    split at h
    · simp at h
    · obtain ⟨hint, hmem, hname⟩ := (forward_mem_union _).mp h
      obtain ⟨v, hv, rfl⟩ := List.mem_map.mp hmem
      obtain ⟨target, htarget, rfl⟩ := exists_of_hintOf hname
      exact ⟨target, .variant hu hv htarget, rfl⟩

/-- The names that the class of a model refers to. -/
theorem mentions_of_class {m : Model} (hm : g.model? id = some m)
    (h : RefersTo (.model (classDef g names (names.nameOf id) m)) name) :
    ∃ target, g.Mentions id target ∧ names.nameOf target = name := by
  cases h with
  | hint h =>
    obtain ⟨f, hf, hname⟩ := List.mem_flatMap.mp h
    obtain ⟨p, hp, rfl⟩ := List.mem_map.mp hf
    have hhint : TypeHint.forward name ∈ (hintOf g names p.type).walk := by
      unfold field at hname
      dsimp only at hname
      split at hname
      · exact (forward_mem_optional _).mp hname
      · exact hname
    obtain ⟨target, htarget, rfl⟩ := exists_of_hintOf hhint
    exact ⟨target, .property hm hp htarget, rfl⟩
  | base h =>
    change baseName g names m ≠ rootBase at h
    change ∃ target, g.Mentions id target ∧ names.nameOf target = baseName g names m
    unfold baseName at *
    cases hb : m.base with
    | none => simp [hb] at h
    | some base =>
      rw [hb] at h
      dsimp only at h ⊢
      cases hs : g.isStructural base with
      | true => simp [hs] at h
      | false => exact ⟨base, .base hm hb hs, rfl⟩

/-- Every name that a statement refers to is that of a declaration it mentions. -/
theorem mentions_of_refersTo (hs : statement? g names id = some s) (h : RefersTo s name) :
    ∃ target, g.Mentions id target ∧ names.nameOf target = name := by
  unfold statement? at hs
  split at hs
  · cases hs
    cases h with
    | hint h => cases h
  · rename_i u hd
    cases hs
    exact mentions_of_alias (Graph.union?_eq_some_iff.mpr hd) h
  · rename_i m hd
    cases hs
    exact mentions_of_class (Graph.model?_eq_some_iff.mpr hd) h
  · cases hs

/-! ## Nothing dangles -/

/-- What goes to some file leads only to declarations that go to some file too. -/
theorem Goes.mentioned {o : Options} (hg : g.Coherent) (hopen : g.Open) {u : Usage}
    (h : Goes g o u id) {target : DeclId} (hmentions : g.Mentions id target) :
    Goes g o (g.classify.usageOf target) target where
  declarable := hmentions.isDeclarable hg hopen
  used := fun hconstrain => hmentions.used hg hopen (h.used hconstrain)
  usage := rfl

/-- **No reference dangles.** Where nothing that is written lies in the reserved part of the tree,
the names in a statement of a module are those of declarations that it mentions, and each of these
has its own statement, under this name, in one of the modules. -/
theorem no_dangling_reference {doc : Document} {o : Options} (hg : Graph.ofDocument doc = .ok g)
    (ho : o.validate = .ok ())
    (hopen : ∀ home scope, doc.Scope home scope → home.isReserved = false) :
    files g o = (modules g o).map (fun (name, m) => (fileName name, m.text)) ∧
    ∀ entry ∈ modules g o, ∀ s ∈ entry.2.statements,
      ∃ u id, Goes g o u id ∧ statement? g (nameTable g) id = some s ∧
        (∀ name, RefersTo s name →
          ∃ target, g.Mentions id target ∧ (nameTable g).nameOf target = name) ∧
        ∀ target, g.Mentions id target → ∃ entry' ∈ modules g o, ∃ s' ∈ entry'.2.statements,
          statement? g (nameTable g) target = some s' ∧
            statementName s' = (nameTable g).nameOf target := by
  have hcoherent := Graph.coherent_of_ofDocument hg
  have hgraph : g.Open := fun _ _ => Graph.isReserved_eq_false_of_ofDocument hg hopen
  refine ⟨files_eq ho g, fun entry hentry s hs => ?_⟩
  obtain ⟨hvalid, u, _, rfl⟩ := mem_modules_iff.mp hentry
  obtain ⟨id, hgoes, hstatement⟩ := (renders_moduleOfUsage hcoherent o u).exists_decl hs
  refine ⟨u, id, hgoes, hstatement, fun name hname => mentions_of_refersTo hstatement hname,
    fun target hmentions => ?_⟩
  have htarget := hgoes.mentioned hcoherent hgraph hmentions
  have hbucket : bucket g o (g.classify.usageOf target) ≠ [] :=
    List.ne_nil_of_mem ((mem_bucket_iff hcoherent).mpr htarget)
  obtain ⟨s', hs', hstatement'⟩ :=
    (renders_moduleOfUsage hcoherent o (g.classify.usageOf target)).exists_statement htarget
  exact ⟨_, mem_modules_iff.mpr ⟨hvalid, _, hbucket, rfl⟩, s', hs', hstatement',
    statementName_eq hstatement'⟩

/-- The program of the pets has no namespace but the global one. -/
theorem isReserved_of_scope_pets {home : NamespaceId} {scope : List Document.Namespace}
    (h : pets.Scope home scope) : home.isReserved = false := by
  have hroot : home = .root ∧ scope = [pets.root] := by
    induction h with
    | root => exact ⟨rfl, rfl⟩
    | child _ hc ih =>
      obtain ⟨_, hscope⟩ := ih
      cases hscope
      cases hc
  rw [hroot.1]
  rfl

theorem no_dangling_reference_pets :
    ∃ g, Graph.ofDocument pets = .ok g ∧ Options.validate {} = .ok () ∧
      ∀ entry ∈ modules g {}, ∀ s ∈ entry.2.statements, ∀ name, RefersTo s name →
        ∃ entry' ∈ modules g {}, ∃ s' ∈ entry'.2.statements, statementName s' = name := by
  have hg : Graph.ofDocument pets = .ok _ := rfl
  refine ⟨_, hg, rfl, fun entry hentry s hs name hname => ?_⟩
  obtain ⟨_, id, _, _, hrefers, hmentions⟩ := (no_dangling_reference hg rfl
    fun _ _ h => isReserved_of_scope_pets h).2 entry hentry s hs
  obtain ⟨target, htarget, rfl⟩ := hrefers name hname
  obtain ⟨entry', hentry', s', hs', _, hname'⟩ := hmentions target htarget
  exact ⟨entry', hentry', s', hs', hname'⟩

end Pydantic

end ApiEmit
