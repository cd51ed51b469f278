/-
ApiEmit.Proofs.ArenaFilled — declarations, filled in as they are resolved in a graph.

Whether an index is of a kind can be told before it is filled in, as every index is listed under the
kind that it is declared as (`isOf?_eq`). Filling in a declaration replaces its placeholder, and
leaves the arena of the graph that has the declaration as well (`Represents.fill`). One law for each
kind says what its step does, and one for all of them says what a pass does (`fillAll_follows`).
-/
import ApiEmit.Proofs.ArenaTypes

namespace ApiEmit

/-- A graph with some more declarations. -/
def Graph.add (g : Graph) (declarations : List (DeclId × Declaration)) : Graph :=
  { g with declarations := g.declarations ++ declarations }

theorem Graph.declaration?_add {g : Graph} {declarations : List (DeclId × Declaration)}
    {d : DeclId} : (g.add declarations).declaration? d =
      (g.declaration? d).or (declarations.lookup d) :=
  List.lookup_append

theorem Graph.add_add (g : Graph) (first rest : List (DeclId × Declaration)) :
    (g.add first).add rest = g.add (first ++ rest) := by
  simp only [Graph.add, List.append_assoc]

namespace Arena

variable {L : Legend} {g : Graph} {a : Arena} {d : DeclId} {i : TypeIndex}

/-! ## Kinds -/

theorem ShowsDeclaration.kind?_eq {types : List Node} {decl : Declaration} {node : Node}
    (h : ShowsDeclaration L types d decl node) : node.kind? = some decl.kind := by
  cases h <;> rfl

namespace Represents

/-- The node of a declaration is a placeholder or of the kind that is declared. -/
theorem exists_node (h : Represents L g a) (hi : L.IsDecl d i) {kind : Kind}
    (hlisted : Listed g.namespaces d kind) :
    ∃ node, a.type? i = some node ∧ (node.kind? = none ∨ node.kind? = some kind) := by
  cases hd : g.declaration? d with
  | none => exact ⟨_, h.waiting d i hd hi, .inl rfl⟩
  | some decl =>
    obtain ⟨node, hnode, hshows⟩ := h.resolved d decl i hd hi
    have hkind : decl.kind = kind :=
      (h.kinds d decl hd).kind_eq h.ids_nodup h.names_nodup hlisted
    exact ⟨node, hnode, .inr (hkind ▸ hshows.kind?_eq)⟩

/-- The index of a declaration is listed just under the kind that is declared. -/
theorem exists_listed_iff (h : Represents L g a) (hi : L.IsDecl d i) {kind expected : Kind}
    (hlisted : Listed g.namespaces d kind) :
    (∃ node ∈ a.namespaces, i ∈ node.listed expected) ↔ kind = expected := by
  constructor
  · rintro ⟨node, hnode, hmem⟩
    obtain ⟨ns, hns, hshows⟩ := h.exists_shows_of_mem hnode
    obtain ⟨name, hname, hdecl⟩ := Aligned.exists_left (hshows.listed expected) hmem
    obtain rfl : d = ⟨ns.id, name⟩ := Option.some.inj (hi.symm.trans hdecl)
    have hexpected : Listed g.namespaces ⟨ns.id, name⟩ expected :=
      ⟨ns, hns, rfl, Namespace.mem_declared_iff.mpr hname⟩
    exact hlisted.kind_eq h.ids_nodup h.names_nodup hexpected
  · rintro rfl
    obtain ⟨ns, hns, hid, hmem⟩ := hlisted
    obtain ⟨_, node, _, hnode, hshows⟩ := h.exists_node_of_mem hns
    obtain ⟨j, hj, hdecl⟩ :=
      Aligned.exists_right (hshows.listed kind) (Namespace.mem_declared_iff.mp hmem)
    rw [hid] at hdecl
    obtain rfl : i = j := h.owner_inj d i j hi hdecl
    exact ⟨node, List.mem_of_getElem? hnode, hj⟩

/-- Whether an index is of a kind can be told from the start. -/
theorem isOf?_eq (h : Represents L g a) (hi : L.IsDecl d i) {kind : Kind}
    (hlisted : Listed g.namespaces d kind) (expected : Kind) :
    Loader.isOf? expected i a = some (decide (kind = expected)) := by
  obtain ⟨node, hnode, hkind⟩ := h.exists_node hi hlisted
  have hany : (a.namespaces.any fun ns => (ns.listed expected).contains i) =
      decide (kind = expected) := by
    rw [Bool.eq_iff_iff, decide_eq_true_iff, ← h.exists_listed_iff hi hlisted]
    simp
  rw [Loader.isOf?, hnode, Option.bind_eq_bind, Option.bind_some, hany]
  rcases hkind with hkind | hkind <;> simp [hkind]

/-- An intrinsic is of no kind. -/
theorem isOf?_intrinsic (h : Represents L g a) {k : Intrinsic}
    (hi : L.HasInline a.types (.intrinsic k) i) (expected : Kind) :
    Loader.isOf? expected i a = some false := by
  have hnone : ∀ node ∈ a.namespaces, i ∉ node.listed expected := by
    intro node hnode hmem
    obtain ⟨ns, _, hshows⟩ := h.exists_shows_of_mem hnode
    obtain ⟨name, _, hdecl⟩ := Aligned.exists_left (hshows.listed expected) hmem
    exact Option.some_ne_none _ (hdecl.symm.trans hi.1)
  have hnode : a.type? i = some (.intrinsic k) := hi.2
  rw [Loader.isOf?, hnode, Option.bind_eq_bind, Option.bind_some]
  simpa [Node.kind?] using hnone

end Represents

variable {place : Load.Place} {scope : NamespaceIndex}

/-- A base is refused in an arena just when it is in the graph. -/
theorem declarationOf_resolves (h : Represents L g a) (hp : At L g place scope) (expected : Kind)
    (name : String) :
    Resolves L g a (Loader.declarationOf scope place.context expected name)
      (place.declarationOf expected name) fun _ => L.IsDecl := by
  obtain ⟨found, hfound, hshows⟩ := h.lookup?_shows hp.home name
  unfold Loader.declarationOf Loader.reference Load.Place.declarationOf
  rw [bind_assoc, hp.namespaces]
  refine Follows.ask hfound ?_
  obtain ⟨hnone, rfl⟩ | ⟨target, j, htarget, rfl, hj⟩ := Aligned.option_cases hshows
  · rw [hnone]
    exact Follows.refuse _
  · rw [htarget]
    dsimp only
    rw [pure_bind]
    cases hj with
    | @declared d kind j hj =>
      refine Follows.ask (h.isOf?_eq hj (Load.listed_of_lookup? htarget) expected) ?_
      by_cases hkind : kind = expected
      · simp only [hkind, decide_true, if_true]
        exact Follows.pure ⟨h, .refl L a.types, hj⟩
      · simp only [hkind, decide_false, Bool.false_eq_true, if_false]
        exact Follows.refuse _
    | intrinsic hj =>
      refine Follows.ask (h.isOf?_intrinsic hj expected) ?_
      exact Follows.refuse _

/-! ## Filling in -/

/-- The nodes of inline types stay when that of a declaration is replaced. -/
theorem keeps_set (hi : L.IsDecl d i) (types : List Node) (node : Node) :
    Keeps L types L (types.set i.position node) where
  place _ _ h := h
  decl _ _ h := h
  inline n j h := by
    have hne : i.position ≠ j.position := by
      intro heq
      obtain rfl : i = j := TypeIndex.ext heq
      exact Option.some_ne_none _ (hi.symm.trans h.1)
    exact ⟨h.1, (List.getElem?_set_ne hne).trans h.2⟩

/-- **Filling in a declaration gives the arena of the graph that has it.** -/
theorem Represents.fill (h : Represents L g a) (hi : L.IsDecl d i) {decl : Declaration}
    {node : Node} (hshows : ShowsDeclaration L a.types d decl node)
    (hnew : g.declaration? d = none) (hlisted : Listed g.namespaces d decl.kind) :
    Represents L (g.add [(d, decl)]) { a with types := a.types.set i.position node } := by
  have hk := keeps_set hi a.types node
  have hlt := h.position_lt_of_isDecl hi
  have hself : ∀ d', d' = d → (g.add [(d, decl)]).declaration? d' = some decl := by
    rintro d' rfl
    rw [Graph.declaration?_add, hnew, Option.none_or, List.lookup_cons_self]
  have hother : ∀ d', d' ≠ d → (g.add [(d, decl)]).declaration? d' = g.declaration? d' := by
    intro d' hne
    rw [Graph.declaration?_add, Keyed.lookup_cons_of_ne hne, List.lookup_nil, Option.or_none]
  have hkept : ∀ d' j n, d' ≠ d → L.IsDecl d' j → a.type? j = some n →
      (a.types.set i.position node)[j.position]? = some n := by
    intro d' j n hne hj hn
    have hposition : i.position ≠ j.position := by
      intro heq
      obtain rfl : i = j := TypeIndex.ext heq
      exact hne (Option.some.inj (hj.symm.trans hi))
    exact (List.getElem?_set_ne hposition).trans hn
  refine h.withTypes hk (by simp) ?_ ?_ ?_ ?_
  · intro n j hj
    by_cases heq : i.position = j.position
    · obtain rfl : i = j := TypeIndex.ext heq
      exact absurd (hi.symm.trans hj.1) (Option.some_ne_none _)
    · have hold : a.types[j.position]? = some n := (List.getElem?_set_ne heq).symm.trans hj.2
      obtain ⟨t, ht⟩ := h.inline n j ⟨hj.1, hold⟩
      exact ⟨t, ht.mono hk⟩
  · intro d' decl' hd'
    by_cases heq : d' = d
    · obtain rfl : decl' = decl := Option.some.inj (hd'.symm.trans (hself d' heq))
      exact heq ▸ hlisted
    · exact h.kinds d' decl' ((hother d' heq).symm.trans hd')
  · intro d' decl' j hd' hj
    by_cases heq : d' = d
    · subst heq
      obtain rfl : decl' = decl := Option.some.inj (hd'.symm.trans (hself d' rfl))
      obtain rfl : i = j := h.owner_inj d' i j hi hj
      exact ⟨node, List.getElem?_set_self hlt, hshows.mono hk⟩
    · obtain ⟨n, hn, hn'⟩ := h.resolved d' decl' j ((hother d' heq).symm.trans hd') hj
      exact ⟨n, hkept d' j n heq hj hn, hn'.mono hk⟩
  · intro d' j hd' hj
    have heq : d' ≠ d := fun heq => Option.some_ne_none _ ((hself d' heq).symm.trans hd')
    exact hkept d' j _ heq hj (h.waiting d' j ((hother d' heq).symm.trans hd') hj)

/-! ## Slots -/

/-- A slot is that of an entry, which stands in its namespace under its name. -/
structure IsSlot {α : Type} (L : Legend) (name : α → String) (entry : DeclId × α)
    (slot : Loader.Slot α) : Prop where
  written : slot.written = entry.2
  name : name entry.2 = entry.1.name
  id : L.IsDecl entry.1 slot.id
  home : L.IsPlace entry.1.home slot.home

/-- The place in which a declaration is resolved. -/
def placeIn (g : Graph) (d : DeclId) : Load.Place :=
  ⟨g.namespaces, d.home, d.qualifiedName⟩

variable {α : Type} {name : α → String} {entry : DeclId × α} {slot : Loader.Slot α}

theorem IsSlot.at (hslot : IsSlot L name entry slot) (g : Graph) :
    At L g (placeIn g entry.1) slot.home :=
  ⟨rfl, hslot.home⟩

theorem IsSlot.qualify?_eq (hslot : IsSlot L name entry slot) (h : Represents L g a) :
    a.qualify? slot.home (name slot.written) = some entry.1.qualifiedName := by
  rw [h.qualify?_eq hslot.home, hslot.written, hslot.name]
  rfl

/-- A step leaves the arena of a graph that has one declaration more. -/
def Fills (L : Legend) (g : Graph) (d : DeclId) (kind : Kind) (decl : Declaration) (_ : Unit)
    (a' : Arena) : Prop :=
  decl.kind = kind ∧ Represents L (g.add [(d, decl)]) a'

theorem store_follows (h : Represents L g a) (hi : L.IsDecl d i) (hnew : g.declaration? d = none)
    {kind : Kind} (hlisted : Listed g.namespaces d kind) {decl : Declaration}
    (hkind : decl.kind = kind) {node : Node} (hshows : ShowsDeclaration L a.types d decl node) :
    Follows (Loader.store i node) a (.ok decl) (Fills L g d kind) := by
  subst hkind
  refine ⟨(), _, ?_, rfl, h.fill hi hshows hnew hlisted⟩
  rw [Loader.store, if_pos (h.position_lt_of_isDecl hi)]

/-! ## Enums, scalars and unions -/

theorem fillEnum_follows (h : Represents L g a) {e : Document.Enum}
    {slot : Loader.Slot Document.Enum} (hslot : IsSlot L (·.name) (d, e) slot)
    (hnew : g.declaration? d = none) (hlisted : Listed g.namespaces d .enum) :
    Follows (Loader.fillEnum slot) a (.ok (.enum ⟨e.doc, e.members⟩)) (Fills L g d .enum) := by
  obtain ⟨written, i, home⟩ := slot
  obtain rfl : written = e := hslot.written
  have hname : written.name = d.name := hslot.name
  have hshows : ShowsDeclaration L a.types d (.enum ⟨written.doc, written.members⟩) (.enum
      { name := written.name, home := some home, members := written.members,
        doc := written.doc }) := by
    rw [hname]
    exact .enum hslot.home
  exact store_follows h hslot.id hnew hlisted rfl hshows

theorem fillScalar_follows (h : Represents L g a) {s : Document.Scalar}
    {slot : Loader.Slot Document.Scalar} (hslot : IsSlot L (·.name) (d, s) slot)
    (hnew : g.declaration? d = none) (hlisted : Listed g.namespaces d .scalar) :
    Follows (Loader.fillScalar slot) a (Load.scalar (placeIn g d) s) (Fills L g d .scalar) := by
  obtain ⟨written, i, home⟩ := slot
  obtain rfl : written = s := hslot.written
  have hname : written.name = d.name := hslot.name
  unfold Loader.fillScalar Load.scalar
  refine Follows.ask (hslot.qualify?_eq h) ?_
  have hbase := fun name (_ : written.base = some name) =>
    declarationOf_resolves h (hslot.at g) .scalar name
  refine Follows.bind (Resolves.optional hbase h) fun base shown a' hpost => ?_
  obtain ⟨ha', _, hbase⟩ := hpost
  rw [hname]
  exact store_follows ha' hslot.id hnew hlisted rfl (.scalar hslot.home hbase)

theorem fillUnion_follows (h : Represents L g a) {u : Document.Union}
    {slot : Loader.Slot Document.Union} (hslot : IsSlot L (·.name) (d, u) slot)
    (hnew : g.declaration? d = none) (hlisted : Listed g.namespaces d .union) :
    Follows (Loader.fillUnion slot) a (Load.union (placeIn g d) u) (Fills L g d .union) := by
  obtain ⟨written, i, home⟩ := slot
  obtain rfl : written = u := hslot.written
  have hname : written.name = d.name := hslot.name
  have hstable : Stable L (ShowsVariant L) := fun _ _ _ _ hk hv => hv.mono hk
  unfold Loader.fillUnion Load.union
  refine Follows.ask (hslot.qualify?_eq h) ?_
  have hvariant : ∀ v ∈ written.variants, ∀ a, Represents L g a → Resolves L g a
      (do return ⟨v.name, ← Loader.type home d.qualifiedName v.type⟩)
      (do return ⟨v.name, ← (placeIn g d).type v.type⟩) (ShowsVariant L) := fun v _ a ha =>
    (type_resolves ha (hslot.at g) v.type).map fun _ _ _ ht => ⟨rfl, ht⟩
  refine Follows.bind (Resolves.mapM hstable hvariant h) fun variants shown a' hpost => ?_
  obtain ⟨ha', _, hvariants⟩ := hpost
  rw [hname]
  exact store_follows ha' hslot.id hnew hlisted rfl (.union hslot.home hvariants)

/-! ## Models -/

/-- The enums of a graph are some enums. -/
def EnumsAre (enums : Load.Enums) (g : Graph) : Prop :=
  ∀ d e, g.declaration? d = some (.enum e) ↔ enums.lookup d = some e

/-- The node at an index that shows a type is an enum when the type is one, with the same
members. -/
theorem Represents.exists_enum (h : Represents L g a) {enums : Load.Enums}
    (henums : EnumsAre enums g) {t : Ty} (ht : Shows L a.types t i) :
    (∃ d e shown, t = .ref d ∧ L.IsDecl d i ∧ enums.lookup d = some e ∧
      a.type? i = some (.enum shown) ∧ shown.members = e.members) ∨
    (∃ node, a.type? i = some node ∧ (∀ e, node ≠ .enum e) ∧
      ∀ d, t = .ref d → enums.lookup d = none) := by
  cases ht with
  | @ref d _ hi =>
    cases hd : g.declaration? d with
    | none =>
      refine .inr ⟨_, h.waiting d i hd hi, nofun, ?_⟩
      rintro _ ⟨⟩
      rw [← Option.not_isSome_iff_eq_none, Option.isSome_iff_exists]
      rintro ⟨e, he⟩
      exact Option.some_ne_none _ (((henums d e).mpr he).symm.trans hd)
    | some decl =>
      obtain ⟨node, hnode, hshows⟩ := h.resolved d decl i hd hi
      cases hshows with
      | enum => exact .inl ⟨d, _, _, rfl, hi, (henums d _).mp hd, hnode, rfl⟩
      | model | scalar | union =>
        refine .inr ⟨_, hnode, nofun, ?_⟩
        rintro _ ⟨⟩
        rw [← Option.not_isSome_iff_eq_none, Option.isSome_iff_exists]
        rintro ⟨e, he⟩
        cases ((henums d e).mpr he).symm.trans hd
  | intrinsic hi | string hi | number hi | boolean hi => exact .inr ⟨_, hi.2, nofun, nofun⟩
  | array hi | record hi | union hi | model hi => exact .inr ⟨_, hi.2, nofun, nofun⟩

/-- A default is the same in an arena as in its graph. -/
theorem defaultOf?_shows (h : Represents L g a) {enums : Load.Enums} (henums : EnumsAre enums g)
    {t : Ty} (ht : Shows L a.types t i) (value : Json.Value) :
    ∃ found, Loader.defaultOf? value i a = some found ∧
      ShowsDefault L (Load.defaultOf? enums t value) found := by
  unfold Loader.defaultOf?
  obtain ⟨d, e, shown, rfl, hi, he, hnode, hmembers⟩ | ⟨node, hnode, hnot, hnone⟩ :=
    h.exists_enum henums ht
  · rw [hnode]
    refine ⟨_, rfl, ?_⟩
    cases value with
    | string s =>
      dsimp only
      rw [Load.defaultOf?, he, Option.bind_some, hmembers]
      cases e.members.findIdx? (·.name == s) with
      | none => exact .string s
      | some index => exact .member index hi
    | number n => exact .number n
    | bool b => exact .boolean b
    | null => exact .null
    | array | object => exact .none
  · rw [hnode]
    refine ⟨_, rfl, ?_⟩
    cases value with
    | string s =>
      have hmember : Load.defaultOf? enums t (.string s) = some (.string s) := by
        cases t with
        | ref d =>
          rw [Load.defaultOf?, hnone d rfl]
          rfl
        | _ => rfl
      rw [hmember]
      cases node with
      | enum e => exact absurd rfl (hnot e)
      | _ => exact .string s
    | number n => exact .number n
    | bool b => exact .boolean b
    | null => exact .null
    | array | object => exact .none

/-- A default that may be missing. -/
theorem default_follows (h : Represents L g a) {enums : Load.Enums} (henums : EnumsAre enums g)
    {t : Ty} (ht : Shows L a.types t i) (value : Option Json.Value) :
    ∃ found, (value.mapM fun v => Loader.ask (Loader.defaultOf? v i)) a = .ok (found, a) ∧
      ShowsDefault L (value.bind (Load.defaultOf? enums t)) found.join := by
  cases value with
  | none => exact ⟨none, rfl, .none⟩
  | some v =>
    obtain ⟨found, hfound, hshows⟩ := defaultOf?_shows h henums ht v
    refine ⟨some found, ?_, hshows⟩
    have hask : Loader.ask (Loader.defaultOf? v i) a = .ok (found, a) := by
      rw [Loader.ask, hfound]
    change (Loader.ask (Loader.defaultOf? v i) >>= fun x => Pure.pure (some x)) a = _
    rw [Loader.bind_apply, hask]
    rfl

theorem property_resolves (h : Represents L g a) {enums : Load.Enums} (henums : EnumsAre enums g)
    {place : Load.Place} {scope : NamespaceIndex} (hp : At L g place scope)
    (p : Document.Property) :
    Resolves L g a (Loader.property scope place.context p) (Load.property enums place p)
      (ShowsProperty L) := by
  have hat : At L g { place with context := place.context ++ "." ++ p.name } scope :=
    ⟨hp.namespaces, hp.home⟩
  refine (type_resolves h hat p.type).bind fun t i a' ha' _ ht => ?_
  obtain ⟨found, hfound, hshows⟩ := default_follows ha' henums ht p.default
  refine Follows.silent hfound ?_
  exact Resolves.pure ha' ⟨rfl, ht, rfl, hshows, rfl, rfl⟩

theorem fillModel_follows (h : Represents L g a) {enums : Load.Enums} (henums : EnumsAre enums g)
    {m : Document.Model} {slot : Loader.Slot Document.Model}
    (hslot : IsSlot L (·.name) (d, m) slot) (hnew : g.declaration? d = none)
    (hlisted : Listed g.namespaces d .model) :
    Follows (Loader.fillModel slot) a (Load.model enums (placeIn g d) m)
      (Fills L g d .model) := by
  obtain ⟨written, i, home⟩ := slot
  obtain rfl : written = m := hslot.written
  have hname : written.name = d.name := hslot.name
  have hat := hslot.at g
  unfold Loader.fillModel Load.model
  refine Follows.ask (hslot.qualify?_eq h) ?_
  have hbase := fun name (_ : written.base = some name) =>
    declarationOf_resolves h hat .model name
  refine Follows.bind (Resolves.optional hbase h) fun base shownBase a₁ hpost => ?_
  obtain ⟨h₁, _, hbase⟩ := hpost
  have hindexer := fun e (_ : written.indexer = some e) => type_resolves h₁ hat e
  refine Follows.bind (Resolves.optional hindexer h₁) fun indexer shownIndexer a₂ hpost => ?_
  obtain ⟨h₂, hk₂, hindexer⟩ := hpost
  have hstable : Stable L (ShowsProperty L) := fun _ _ _ _ hk hq => hq.mono hk
  have hproperty := fun p (_ : p ∈ written.properties) a (ha : Represents L g a) =>
    property_resolves ha henums hat p
  refine Follows.bind (Resolves.mapM hstable hproperty h₂)
    fun properties shownProperties a₃ hpost => ?_
  obtain ⟨h₃, hk₃, hproperties⟩ := hpost
  rw [hname]
  refine store_follows h₃ hslot.id hnew hlisted rfl (.model hslot.home ?_ hbase ?_)
  · exact Keyed.forall₂_ofList (fun _ _ hq => hq.name.symm) hproperties
  · obtain ⟨rfl, rfl⟩ | ⟨t, value, rfl, rfl, hvalue⟩ := Aligned.option_cases hindexer
    · exact .none
    · exact .some ⟨rfl, hvalue.mono hk₃⟩

/-- What is filled in after the enums leaves the enums as they are. -/
theorem EnumsAre.add {enums : Load.Enums} (h : EnumsAre enums g) {decl : Declaration}
    (hnew : g.declaration? d = none) (hkind : decl.kind ≠ .enum) :
    EnumsAre enums (g.add [(d, decl)]) := by
  intro d' e
  rw [Graph.declaration?_add, ← h d' e]
  by_cases hd : d' = d
  · subst hd
    rw [hnew, Option.none_or, List.lookup_cons_self]
    constructor
    · rintro ⟨⟩
      exact absurd rfl hkind
    · rintro ⟨⟩
  · rw [Keyed.lookup_cons_of_ne hd, List.lookup_nil, Option.or_none]

/-! ## A pass over the declarations of a kind -/

theorem declaration?_eq_none_iff : g.declaration? d = none ↔ d ∉ g.declarations.map (·.1) := by
  rw [Graph.declaration?, ← Option.not_isSome_iff_eq_none, Keyed.isSome_lookup_iff]

/-- **A pass fills in what the graph resolves.** Of what it needs the graph to be, `I`, each
declaration that it adds must leave enough for the next. -/
theorem fillAll_follows {kind : Kind} {fill : Loader.Slot α → Loader Unit}
    {resolve : Load.Place → α → Except LoadError Declaration} {I : Graph → Prop}
    (hI : ∀ g d decl, I g → g.declaration? d = none → decl.kind = kind → I (g.add [(d, decl)]))
    (hfill : ∀ g a d x slot, I g → Represents L g a → IsSlot L name (d, x) slot →
      g.declaration? d = none → Listed g.namespaces d kind →
      Follows (fill slot) a (resolve (placeIn g d) x) (Fills L g d kind))
    {entries : List (DeclId × α)} {slots : List (Loader.Slot α)}
    (hslots : List.Forall₂ (IsSlot L name) entries slots)
    (hnodup : (g.declarations.map (·.1) ++ entries.map (·.1)).Nodup)
    (hlisted : ∀ entry ∈ entries, Listed g.namespaces entry.1 kind) (hg : I g)
    (h : Represents L g a) :
    Follows (slots.forM fill) a (Load.resolveAll g.namespaces resolve entries)
      fun declarations _ a' => declarations.map (·.1) = entries.map (·.1) ∧
        I (g.add declarations) ∧ Represents L (g.add declarations) a' := by
  induction hslots generalizing g a with
  | nil =>
    refine Follows.pure ⟨rfl, ?_, ?_⟩
    · simpa [Graph.add] using hg
    · simpa [Graph.add] using h
  | @cons entry slot entries slots hslot _ ih =>
    obtain ⟨d, x⟩ := entry
    have hd : g.declaration? d = none := by
      rw [declaration?_eq_none_iff]
      rw [List.nodup_append] at hnodup
      exact fun hmem => hnodup.2.2 d hmem d List.mem_cons_self rfl
    have hfirst := hfill g a d x slot hg h hslot hd (hlisted _ List.mem_cons_self)
    unfold Load.resolveAll
    rw [List.mapM_cons, List.forM_eq_forM, List.forM_cons]
    dsimp only
    rw [bind_assoc]
    refine Follows.bind hfirst fun decl _ a' hpost => ?_
    obtain ⟨hkind, ha'⟩ := hpost
    rw [pure_bind]
    have hnodup' : ((g.add [(d, decl)]).declarations.map (·.1) ++ entries.map (·.1)).Nodup := by
      rwa [Graph.add, List.map_append, List.append_assoc]
    have hrest := ih hnodup' (fun entry hentry => hlisted entry (List.mem_cons_of_mem _ hentry))
      (hI g d decl hg hd hkind) ha'
    refine Follows.map_result (hrest.imp fun declarations _ a'' hpost => ?_)
    obtain ⟨hkeys, hI', ha''⟩ := hpost
    rw [Graph.add_add] at hI' ha''
    exact ⟨by rw [List.map_cons, hkeys, List.map_cons], hI', ha''⟩

end Arena

end ApiEmit
