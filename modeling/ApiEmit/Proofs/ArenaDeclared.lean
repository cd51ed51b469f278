/-
ApiEmit.Proofs.ArenaDeclared — the pass that declares names.

The pass goes down the tree of a document and refuses the first name that its namespace has
already, which is the name that the check of the sites one by one refuses. When it comes to the end
the namespaces are those of the sites (`declareTree_follows`), and what is left to fill in are
the entries of the sites, each with its index (`PendingOf`).
-/
import ApiEmit.Proofs.ArenaEntries
import ApiEmit.Proofs.Sites

namespace ApiEmit

namespace Load

/-! ## Names that are new -/

/-- Refuses the first name that has occurred before. -/
def checkFresh (id : NamespaceId) (seen names : List String) : Except LoadError Unit :=
  match firstRepeated? seen names with
  | some name => .error (.duplicate (id.qualify name))
  | none => .ok ()

theorem checkDistinct_eq (ns : Namespace) :
    checkDistinct ns = checkFresh ns.id [] (ns.declared.map (·.1)) := rfl

theorem checkFresh_cons (id : NamespaceId) (seen : List String) (name : String)
    (rest : List String) : checkFresh id seen (name :: rest) =
      if name ∈ seen then .error (.duplicate (id.qualify name))
      else checkFresh id (name :: seen) rest := by
  unfold checkFresh
  rw [firstRepeated?]
  by_cases h : name ∈ seen <;> simp [h]

/-- Names are checked one part after the other. -/
theorem checkFresh_append (id : NamespaceId) (seen names rest : List String) :
    checkFresh id seen (names ++ rest) =
      (checkFresh id seen names >>= fun _ => checkFresh id (names.reverse ++ seen) rest) := by
  induction names generalizing seen with
  | nil => rfl
  | cons name names ih =>
    rw [List.cons_append, checkFresh_cons, checkFresh_cons]
    split
    · rfl
    · rw [ih, List.reverse_cons, List.append_assoc, List.singleton_append]

end Load

namespace Arena

variable {L L' : Legend} {g : Graph} {a : Arena} {ns : ApiEmit.Namespace} {home : NamespaceIndex}

/-! ## What has been declared -/

/-- What has been declared, with what is known by then. -/
def Declares {γ : Type} (L : Legend) (a : Arena) (g' : Graph) (R : Legend → γ → Prop) (_ : Unit)
    (x : γ) (a' : Arena) : Prop :=
  ∃ L', Keeps L a.types L' a'.types ∧ Declaring L' g' a' ∧ R L' x

section

variable {γ δ : Type} {step : Loader γ} {result : Except LoadError Unit} {g' g'' : Graph}
  {R : Legend → γ → Prop} {S : Legend → δ → Prop}

/-- Declaring one thing after the other. -/
theorem Declares.bind {next : γ → Loader δ} {rest : Except LoadError Unit}
    (h : Follows step a result (Declares L a g' R))
    (hnext : ∀ L' x a', Keeps L a.types L' a'.types → Declaring L' g' a' → R L' x →
      Follows (next x) a' rest (Declares L' a' g'' S)) :
    Follows (step >>= next) a (result >>= fun _ => rest) (Declares L a g'' S) := by
  refine Follows.bind h fun _ x a' hpost => ?_
  obtain ⟨L', hk, ha', hR⟩ := hpost
  refine (hnext L' x a' hk ha' hR).imp fun _ y a'' hpost' => ?_
  obtain ⟨L'', hk', ha'', hS⟩ := hpost'
  exact ⟨L'', hk.trans hk', ha'', hS⟩

/-- What is declared from an arena on is declared from what the arena has grown from. -/
theorem Declares.grow {a' : Arena} (hk : Keeps L a.types L' a'.types)
    (h : Follows step a' result (Declares L' a' g' R)) :
    Follows step a' result (Declares L a g' R) :=
  h.imp fun _ x a'' hpost => by
    obtain ⟨L'', hk', ha'', hR⟩ := hpost
    exact ⟨L'', hk.trans hk', ha'', hR⟩

/-- A value that is made from what has been declared. -/
theorem Declares.map {f : γ → δ} (h : Follows step a result (Declares L a g' R))
    (hS : ∀ L' x (a' : Arena), Keeps L a.types L' a'.types → R L' x → S L' (f x)) :
    Follows (step >>= fun x => Pure.pure (f x)) a result (Declares L a g' S) :=
  h.map_left fun _ x a' hpost => by
    obtain ⟨L', hk, ha', hR⟩ := hpost
    exact ⟨L', hk, ha', hS L' x a' hk hR⟩

end

/-! ## One name -/

/-- A name that a namespace has already is refused, and any other is declared. -/
theorem declareAs_follows (h : Declaring L g a) (hns : g.namespaces[home.position]? = some ns)
    (kind : Kind) (name : String) :
    Follows (Loader.declareAs kind home name) a
      (if name ∈ ns.declared.map (·.1) then .error (.duplicate (ns.id.qualify name)) else .ok ())
      (Declares L a
        { g with namespaces := g.namespaces.set home.position (ns.extend kind [name]) }
        fun L' => L'.IsDecl ⟨ns.id, name⟩) := by
  have hplace : L.IsPlace ns.id home := h.isPlace_id hns
  obtain ⟨node, hnode, hshows⟩ := h.exists_node_at hns
  have hisSome : (node.declared.lookup name).isSome = true ↔ name ∈ ns.declared.map (·.1) :=
    Keyed.isSome_lookup_iff.trans (hshows.names name)
  unfold Loader.declareAs Loader.declare
  rw [bind_assoc]
  refine Follows.ask hnode ?_
  by_cases hmem : name ∈ ns.declared.map (·.1)
  · rw [if_pos hmem, if_pos (hisSome.mpr hmem), bind_assoc]
    exact Follows.ask (h.qualify?_eq hplace name) (Follows.refuse _)
  · rw [if_neg hmem, if_neg fun hsome => hmem (hisSome.mp hsome), bind_assoc]
    have hlt : home.position < a.namespaces.length := (List.getElem?_eq_some_iff.mp hnode).1
    have hdeclared := h.declare hns hnode kind hmem
    rw [← List.set_set (node.enter name ⟨a.types.length⟩)] at hdeclared
    refine Follows.silent rfl ?_
    rw [bind_assoc]
    have hnode' : ({ a with types := a.types ++ [.placeholder] } : Arena).namespace? home =
        some node := hnode
    refine Follows.silent (Loader.update_eq hnode' _) ?_
    rw [pure_bind]
    have hnode'' : ({ a with
        types := a.types ++ [.placeholder]
        namespaces := a.namespaces.set home.position (node.enter name ⟨a.types.length⟩) }
        : Arena).namespace? home = some (node.enter name ⟨a.types.length⟩) :=
      List.getElem?_set_self hlt
    refine Follows.silent (Loader.update_eq hnode'' _) ?_
    exact Follows.pure ⟨L.own ⟨ns.id, name⟩, keeps_own h.full _ .placeholder, hdeclared,
      Legend.isDecl_own_iff.mpr (.inr ⟨h.full.symm, rfl⟩)⟩

/-! ## The names of a kind -/

theorem IsSlot.mono {α : Type} {name : α → String} {types types' : List Node}
    (hk : Keeps L types L' types') {entry : DeclId × α} {slot : Loader.Slot α}
    (h : IsSlot L name entry slot) : IsSlot L' name entry slot :=
  { h with id := hk.decl _ _ h.id, home := hk.place _ _ h.home }

/-- The names of a kind are declared one after the other. -/
theorem declareAll_follows {α : Type} (kind : Kind) (name : α → String) (items : List α)
    (seen : List String) (h : Declaring L g a) (hns : g.namespaces[home.position]? = some ns)
    (hseen : ∀ n, n ∈ seen ↔ n ∈ ns.declared.map (·.1)) :
    Follows (Loader.declareAll kind name home items) a
      (Load.checkFresh ns.id seen (items.map name))
      (Declares L a
        { g with
          namespaces := g.namespaces.set home.position (ns.extend kind (items.map name)) }
        fun L' slots => List.Forall₂ (IsSlot L' name)
          (items.map fun x => (⟨ns.id, name x⟩, x)) slots) := by
  induction items generalizing L g a ns seen with
  | nil =>
    refine Follows.pure ⟨L, .refl L a.types, ?_, .nil⟩
    have hsame : g.namespaces.set home.position ns = g.namespaces := by
      obtain ⟨hlt, heq⟩ := List.getElem?_eq_some_iff.mp hns
      rw [← heq, List.set_getElem_self]
    simpa [hsame] using h
  | cons x items ih =>
    have hresult : Load.checkFresh ns.id seen ((x :: items).map name) =
        ((if name x ∈ ns.declared.map (·.1) then .error (.duplicate (ns.id.qualify (name x)))
          else .ok ()) >>= fun _ => Load.checkFresh ns.id (name x :: seen) (items.map name)) := by
      rw [List.map_cons, Load.checkFresh_cons]
      simp only [hseen]
      split <;> rfl
    have hlt := (List.getElem?_eq_some_iff.mp hns).1
    unfold Loader.declareAll
    rw [List.mapM_cons, bind_assoc, hresult]
    refine Declares.bind (declareAs_follows h hns kind (name x)) fun L₁ id a₁ hk₁ h₁ hid => ?_
    rw [pure_bind]
    have hseen₁ : ∀ n, n ∈ name x :: seen ↔
        n ∈ (ns.extend kind [name x]).declared.map (·.1) := by
      intro n
      rw [List.mem_cons, hseen, ApiEmit.Namespace.mem_names_extend_iff, List.mem_singleton]
    have hrest := ih (name x :: seen) h₁ (List.getElem?_set_self hlt) hseen₁
    rw [ApiEmit.Namespace.id_extend, List.set_set, ApiEmit.Namespace.extend_extend,
      List.singleton_append] at hrest
    refine Declares.map hrest fun L₂ slots a₂ hk₂ hslots => .cons ?_ hslots
    exact ⟨rfl, rfl, hk₂.decl _ _ hid, hk₂.place _ _ (hk₁.place _ _ (h.isPlace_id hns))⟩

/-- The names of a kind are declared in a namespace that has been given others. -/
theorem declareMore_follows {α : Type} (kind : Kind) (name : α → String) (items : List α)
    (seen : List String) (hlt : home.position < g.namespaces.length)
    (h : Declaring L { g with namespaces := g.namespaces.set home.position ns } a)
    (hseen : ∀ n, n ∈ seen ↔ n ∈ ns.declared.map (·.1)) :
    Follows (Loader.declareAll kind name home items) a
      (Load.checkFresh ns.id seen (items.map name))
      (Declares L a
        { g with
          namespaces := g.namespaces.set home.position (ns.extend kind (items.map name)) }
        fun L' slots => List.Forall₂ (IsSlot L' name)
          (items.map fun x => (⟨ns.id, name x⟩, x)) slots) := by
  have hdeclared := declareAll_follows kind name items seen h (List.getElem?_set_self hlt) hseen
  rwa [List.set_set] at hdeclared

/-! ## One namespace -/

/-- What is left to fill in are the entries of some sites. -/
structure PendingOf (L : Legend) (sites : List Load.Site) (pending : Loader.Pending) : Prop where
  namespaces : List.Forall₂ (fun (s : Load.Site) entry => entry.1 = s.content ∧
    L.IsPlace s.id entry.2) sites pending.namespaces
  models : List.Forall₂ (IsSlot L (·.name)) (Load.entries (·.models) (·.name) sites)
    pending.models
  enums : List.Forall₂ (IsSlot L (·.name)) (Load.entries (·.enums) (·.name) sites) pending.enums
  unions : List.Forall₂ (IsSlot L (·.name)) (Load.entries (·.unions) (·.name) sites)
    pending.unions
  scalars : List.Forall₂ (IsSlot L (·.name)) (Load.entries (·.scalars) (·.name) sites)
    pending.scalars

namespace PendingOf

variable {types types' : List Node} {sites sites' : List Load.Site}
  {pending pending' : Loader.Pending}

theorem mono (hk : Keeps L types L' types') (h : PendingOf L sites pending) :
    PendingOf L' sites pending where
  namespaces := h.namespaces.imp fun _ _ hs => ⟨hs.1, hk.place _ _ hs.2⟩
  models := h.models.imp fun _ _ hs => hs.mono hk
  enums := h.enums.imp fun _ _ hs => hs.mono hk
  unions := h.unions.imp fun _ _ hs => hs.mono hk
  scalars := h.scalars.imp fun _ _ hs => hs.mono hk

theorem nil (L : Legend) : PendingOf L [] {} :=
  ⟨.nil, .nil, .nil, .nil, .nil⟩

theorem append (h : PendingOf L sites pending) (h' : PendingOf L sites' pending') :
    PendingOf L (sites ++ sites') (pending ++ pending') := by
  have hentries : ∀ {α : Type} (list : Document.Namespace → List α) (name : α → String),
      Load.entries list name (sites ++ sites') =
        Load.entries list name sites ++ Load.entries list name sites' := fun list name =>
    List.flatMap_append
  refine ⟨List.rel_append h.namespaces h'.namespaces, ?_, ?_, ?_, ?_⟩ <;> rw [hentries]
  · exact List.rel_append h.models h'.models
  · exact List.rel_append h.enums h'.enums
  · exact List.rel_append h.unions h'.unions
  · exact List.rel_append h.scalars h'.scalars

end PendingOf

/-- The entries of one site. -/
theorem entries_singleton {α : Type} (list : Document.Namespace → List α) (name : α → String)
    (s : Load.Site) : Load.entries list name [s] =
      (list s.content).map fun x => (⟨s.id, name x⟩, x) := by
  simp [Load.entries]

/-- A namespace that is new is given what it says about itself, and its names. -/
theorem declareIn_follows (s : Load.Site) (h : Declaring L g a)
    (hns : g.namespaces[home.position]? = some (vacant s.id)) :
    Follows (Loader.declareIn home s.content) a (Load.checkDistinct s.declare)
      (Declares L a { g with namespaces := g.namespaces.set home.position s.declare }
        fun L' => PendingOf L' [s]) := by
  obtain ⟨id, written⟩ := s
  have hplace : L.IsPlace id home := h.isPlace_id hns
  obtain ⟨node, hnode, _⟩ := h.exists_node_at hns
  have hlt := (List.getElem?_eq_some_iff.mp hns).1
  have h₀ := h.describe hns hnode written.doc (written.service.map fun m => ⟨m.title⟩)
    written.servers
  -- the names are checked kind by kind
  have hresult : Load.checkDistinct (Load.Site.declare ⟨id, written⟩) = (do
      Load.checkFresh id [] (written.models.map (·.name))
      Load.checkFresh id (written.models.map (·.name)).reverse (written.enums.map (·.name))
      Load.checkFresh id (written.models.map (·.name) ++ written.enums.map (·.name)).reverse
        (written.unions.map (·.name))
      Load.checkFresh id (written.models.map (·.name) ++ written.enums.map (·.name) ++
        written.unions.map (·.name)).reverse (written.scalars.map (·.name))) := by
    rw [Load.checkDistinct_eq, ApiEmit.Namespace.names_eq]
    simp only [Load.checkFresh_append, List.append_nil, List.reverse_append, bind_assoc]
    rfl
  unfold Loader.declareIn
  rw [hresult]
  refine Follows.silent (Loader.update_eq hnode _) ?_
  have hmodels := declareMore_follows .model (·.name) written.models [] hlt h₀
    (by simp [vacant, ApiEmit.Namespace.declared])
  refine Declares.bind hmodels fun L₁ models a₁ hk₁ h₁ hmodels => ?_
  have henums := declareMore_follows .enum (·.name) written.enums
    (written.models.map (·.name)).reverse hlt h₁
    (by simp [ApiEmit.Namespace.extend, vacant, ApiEmit.Namespace.declared])
  refine Declares.bind henums fun L₂ enums a₂ hk₂ h₂ henums => ?_
  have hunions := declareMore_follows .union (·.name) written.unions
    (written.models.map (·.name) ++ written.enums.map (·.name)).reverse hlt h₂
    (by simp [ApiEmit.Namespace.extend, vacant, ApiEmit.Namespace.declared, or_comm])
  refine Declares.bind hunions fun L₃ unions a₃ hk₃ h₃ hunions => ?_
  have hscalars := declareMore_follows .scalar (·.name) written.scalars
    (written.models.map (·.name) ++ written.enums.map (·.name) ++
      written.unions.map (·.name)).reverse hlt h₃
    (by simp [ApiEmit.Namespace.extend, vacant, ApiEmit.Namespace.declared, or_comm, or_assoc,
      or_left_comm])
  refine Declares.map hscalars fun L₄ scalars a₄ hk₄ hscalars => ?_
  have hk₃₄ := hk₃.trans hk₄
  have hk₂₄ := hk₂.trans hk₃₄
  exact
    { namespaces := .cons ⟨rfl, hk₂₄.place _ _ (hk₁.place _ _ hplace)⟩ .nil
      models := entries_singleton (·.models) _ _ ▸ hmodels.imp fun _ _ hs => hs.mono hk₂₄
      enums := entries_singleton (·.enums) _ _ ▸ henums.imp fun _ _ hs => hs.mono hk₃₄
      unions := entries_singleton (·.unions) _ _ ▸ hunions.imp fun _ _ hs => hs.mono hk₄
      scalars := entries_singleton (·.scalars) _ _ ▸ hscalars }

end Arena

/-! ## A tree of namespaces -/

namespace Load

/-- The places of some sites are not in a table yet. -/
def AreNew (sites : List Site) (table : List Namespace) : Prop :=
  ∀ s ∈ sites, s.id ∉ table.map (·.id)

namespace AreNew

variable {id : NamespaceId} {position : Nat} {first : Document.Namespace}
  {rest : List Document.Namespace} {table : List Namespace}

theorem child (h : AreNew (sitesBelow id position (first :: rest)) table) :
    id.child position first.name ∉ table.map (·.id) := by
  refine h ⟨id.child position first.name, first⟩ ?_
  rw [sitesBelow, sites_eq]
  exact List.mem_cons_self

/-- What lies below the first child is still new when the child is there. -/
theorem below (h : AreNew (sitesBelow id position (first :: rest)) table) :
    AreNew (sitesBelow (id.child position first.name) 1 first.namespaces)
      (table ++ [Arena.vacant (id.child position first.name)]) := by
  intro s hs hmem
  rw [List.map_append, List.mem_append] at hmem
  rcases hmem with hmem | hmem
  · refine h s ?_ hmem
    rw [sitesBelow, sites_eq]
    exact List.mem_append_left _ (List.mem_cons_of_mem _ hs)
  · exact ne_of_mem_sitesBelow hs (List.mem_singleton.mp hmem)

/-- The other children are still new when the tree of the first one is there. -/
theorem others (h : AreNew (sitesBelow id position (first :: rest)) table) :
    AreNew (sitesBelow id (position + 1) rest)
      (table ++ (sites (id.child position first.name) first).map (·.declare)) := by
  intro s hs hmem
  rw [List.map_append, List.map_map, List.mem_append] at hmem
  rcases hmem with hmem | hmem
  · refine h s ?_ hmem
    rw [sitesBelow]
    exact List.mem_append_right _ hs
  · exact not_mem_ids_of_mem_sitesBelow hs hmem

end AreNew

/-- A place at the end of a table, given its names and what lies below it. -/
theorem set_declare_append (table : List Namespace) (id : NamespaceId)
    (ns : Document.Namespace) :
    (table ++ [Arena.vacant id]).set table.length (Site.declare ⟨id, ns⟩) ++
        (sitesBelow id 1 ns.namespaces).map (·.declare) =
      table ++ (sites id ns).map (·.declare) := by
  rw [List.set_append_right _ _ (Nat.le_refl _), Nat.sub_self, sites_eq]
  simp

end Load

namespace Arena

theorem Loader.declareNamespace_eq (id : NamespaceIndex) (ns : Document.Namespace) :
    declareNamespace id ns = (do
      let pending ← declareIn id ns
      return pending ++ (← declareChildren id ns.namespaces)) := by
  cases ns
  rfl

/-- **Declaring a tree of namespaces is declaring its sites one by one.** The places below the
namespace that it starts at must be new. -/
theorem declareTree_follows :
    (∀ id content L g a (home : NamespaceIndex), Declaring L g a →
      g.namespaces[home.position]? = some (vacant id) →
      Load.AreNew (Load.sitesBelow id 1 content.namespaces) g.namespaces →
      Follows (Loader.declareNamespace home content) a
        ((Load.sites id content).forM fun s => Load.checkDistinct s.declare)
        (Declares L a
          { g with
            namespaces := g.namespaces.set home.position (Load.Site.declare ⟨id, content⟩) ++
              (Load.sitesBelow id 1 content.namespaces).map (·.declare) }
          fun L' => PendingOf L' (Load.sites id content))) ∧
    ∀ id position children L g a (home : NamespaceIndex), Declaring L g a →
      (∃ ns, g.namespaces[home.position]? = some ns ∧ ns.id = id) →
      Load.AreNew (Load.sitesBelow id position children) g.namespaces →
      Follows (Loader.declareChildren home children) a
        ((Load.sitesBelow id position children).forM fun s => Load.checkDistinct s.declare)
        (Declares L a
          { g with
            namespaces := g.namespaces ++
              (Load.sitesBelow id position children).map (·.declare) }
          fun L' => PendingOf L' (Load.sitesBelow id position children)) := by
  apply Load.sites_induction
  · intro id content ih L g a home h hns hnew
    have hlt := (List.getElem?_eq_some_iff.mp hns).1
    rw [Loader.declareNamespace_eq, Load.sites_eq, List.forM_eq_forM, List.forM_cons]
    have hids : (g.namespaces.set home.position (Load.Site.declare ⟨id, content⟩)).map (·.id) =
        g.namespaces.map (·.id) := ApiEmit.Namespace.map_id_set hns rfl
    refine Declares.bind (declareIn_follows ⟨id, content⟩ h hns)
      fun L₁ pending a₁ hk₁ h₁ hpending => ?_
    have hbelow := ih L₁ _ a₁ home h₁ ⟨_, List.getElem?_set_self hlt, rfl⟩
      fun s hs => hids ▸ hnew s hs
    refine Declares.map hbelow fun L₂ rest a₂ hk₂ hrest => ?_
    exact (hpending.mono hk₂).append hrest
  · intro id position L g a home h _ _
    refine Follows.pure ⟨L, .refl L a.types, ?_, .nil L⟩
    simpa [Load.sitesBelow] using h
  · intro id position first rest ihFirst ihRest L g a home h hhome hnew
    obtain ⟨ns, hns, rfl⟩ := hhome
    obtain ⟨node, hnode, _⟩ := h.exists_node_at hns
    rw [Load.sitesBelow, List.forM_eq_forM, List.forM_append]
    -- the child gets the next place
    refine Follows.silent (Loader.addNamespace_eq hnode first.name) ?_
    have h₁ := h.addNamespace hns hnode (h.places ▸ hnew.child)
    have hk₁ := keeps_settle L a.types (ns.id.child position first.name)
    refine Declares.grow hk₁ ?_
    -- its tree is declared
    have hvacant : (g.namespaces ++ [vacant (ns.id.child position first.name)])[
        a.namespaces.length]? = some (vacant (ns.id.child position first.name)) := by
      rw [h.length_eq, List.getElem?_concat_length]
    have hfirst := ihFirst _ _ _ ⟨a.namespaces.length⟩ h₁ hvacant hnew.below
    dsimp only at hfirst
    rw [h.length_eq, Load.set_declare_append, ← h.length_eq] at hfirst
    refine Declares.bind hfirst fun L₂ pending a₂ hk₂ h₂ hpending => ?_
    -- and then the other children are
    have hns₂ : (g.namespaces ++
        (Load.sites (ns.id.child position first.name) first).map (·.declare))[home.position]? =
          some ns := (List.getElem?_append_left (List.getElem?_eq_some_iff.mp hns).1).trans hns
    have hrest := ihRest _ _ _ home h₂ ⟨ns, hns₂, rfl⟩ hnew.others
    rw [List.append_assoc, ← List.map_append] at hrest
    refine Declares.map hrest fun L₃ rest a₃ hk₃ hrest => ?_
    exact (hpending.mono hk₃).append hrest

end Arena

end ApiEmit
