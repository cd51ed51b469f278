/-
ApiEmit.Proofs.NameLookup — a dotted path is resolved from the inside out.

From a namespace around a declaration a path of names leads down to it (`Leads`), and where
namespaces side by side have different names it leads nowhere else. A name is looked up in the
namespaces around a place, and the innermost one from which it leads to a declaration decides
(`lookup?_eq_of_innermost`), also where an outer one has been meant: a path that only starts out in
an inner namespace does not stop the search there.
-/
import ApiEmit.Proofs.QualifiedNames
import Mathlib.Order.WellFounded

namespace ApiEmit

/-! ## The way outwards -/

namespace NamespaceId

variable {id outer scope x y : NamespaceId}

theorem within_iff_suffix : id.Within outer ↔ outer.segments <:+ id.segments := by
  rw [← isWithin_iff]
  exact List.isSuffixOf_iff_suffix

/-- A namespace on the way from one outwards to another, which is itself not on the way. -/
def OnWay (scope outer x : NamespaceId) : Prop :=
  scope.Within x ∧ x.Within outer ∧ x ≠ outer

theorem OnWay.length_lt (h : OnWay scope outer x) :
    outer.segments.length < x.segments.length := by
  have hsuffix := within_iff_suffix.mp h.2.1
  refine hsuffix.length_le.lt_of_ne fun hlength => h.2.2 ?_
  exact (NamespaceId.mk.injEq ..).mpr (hsuffix.eq_of_length hlength).symm

/-- Nothing is on the way from the global namespace. -/
theorem not_onWay_root : ¬ OnWay .root outer x := by
  intro h
  have hlt := h.length_lt
  have hle := (within_iff_suffix.mp h.1).length_le
  have hroot : root.segments.length = 0 := rfl
  omega

end NamespaceId

/-! ## Searching from the inside out -/

namespace Scope

variable {namespaces : List Namespace} {scope x : NamespaceId} {name : String} {target : Target}

/-- The innermost namespace in which a name is found decides. -/
theorem lookup?_eq_of_innermost (hx : scope.Within x)
    (hfound : lookupIn? namespaces x (Text.split '.' name) = some target)
    (hinner : ∀ y, NamespaceId.OnWay scope x y →
      lookupIn? namespaces y (Text.split '.' name) = none) :
    lookup? namespaces scope name = some target := by
  have hsearch : scope.enclosing.findSome? (lookupIn? namespaces · (Text.split '.' name)) =
      some target := by
    obtain ⟨segments⟩ := scope
    unfold NamespaceId.enclosing
    dsimp only
    induction segments with
    | nil =>
      have hroot : x = ⟨[]⟩ := by
        have hsegments := List.suffix_nil.mp (NamespaceId.within_iff_suffix.mp hx)
        exact (NamespaceId.mk.injEq ..).mpr hsegments
      simp [NamespaceId.outwards, ← hroot, hfound]
    | cons segment rest ih =>
      rw [NamespaceId.outwards, List.findSome?_cons]
      by_cases hself : (⟨segment :: rest⟩ : NamespaceId) = x
      · rw [hself, hfound]
      · have hfirst : lookupIn? namespaces ⟨segment :: rest⟩ (Text.split '.' name) = none :=
          hinner _ ⟨.refl, hx, hself⟩
        -- every place further out is on the way from here too
        have hstep : (⟨segment :: rest⟩ : NamespaceId).Within ⟨rest⟩ := .single rfl
        have hrest : (⟨rest⟩ : NamespaceId).Within x := by
          rcases hx.cases_head with heq | ⟨next, hnext, hx⟩
          · exact absurd heq hself
          · cases hnext
            exact hx
        rw [hfirst]
        exact ih hrest fun y hy => hinner y ⟨hstep.trans hy.1, hy.2⟩
  unfold lookup?
  dsimp only
  rw [hsearch, Option.some_or, Option.some_or]

end Scope

/-! ## Paths to declarations -/

/-- The names from a namespace down to a declaration below it, and the name of the declaration. -/
def DeclId.pathFrom (outer : NamespaceId) (id : DeclId) : List String :=
  (id.home.segments.take (id.home.segments.length - outer.segments.length)).reverse.map
    Segment.name ++ [id.name]

namespace Graph

/-- A path leads from a namespace to a declaration: each name but the last to a namespace right
below, and the last to what is declared there. -/
inductive Leads (g : Graph) : NamespaceId → List String → DeclId → Prop
  | declared {ns : Namespace} {name : String} {kind : Kind} (hns : ns ∈ g.namespaces)
      (h : (name, kind) ∈ ns.declared) : Leads g ns.id [name] ⟨ns.id, name⟩
  | through {outer : NamespaceId} {inner : Namespace} {rest : List String} {t : DeclId}
      (hinner : inner ∈ g.namespaces) (hparent : inner.id.parent? = some outer)
      (h : Leads g inner.id rest t) : Leads g outer (inner.id.name :: rest) t

variable {doc : Document} {g : Graph} {t u : DeclId} {d : Declaration} {outer x : NamespaceId}
  {path : List String}

theorem Leads.ne_nil (h : g.Leads x path t) : path ≠ [] := by
  cases h <;> exact List.cons_ne_nil _ _

theorem Leads.exists_start (hg : Graph.ofDocument doc = .ok g) (h : g.Leads x path t) :
    ∃ ns ∈ g.namespaces, ns.id = x := by
  cases h with
  | declared hns => exact ⟨_, hns, rfl⟩
  | through hinner hparent => exact (StoresNamespace.parent hinner hparent).exists_of_ofDocument hg

/-- Where names are plain, a namespace has no two namespaces of one name in it. -/
theorem eq_of_siblings (h : doc.PlainNames) (hg : Graph.ofDocument doc = .ok g)
    {ns ns' : Namespace} (hns : ns ∈ g.namespaces) (hns' : ns' ∈ g.namespaces)
    (hparent : ns.id.parent? = some outer) (hparent' : ns'.id.parent? = some outer)
    (hname : ns.id.name = ns'.id.name) : ns.id = ns'.id := by
  obtain ⟨_, hstands⟩ := (exists_namespace_iff hg).mp ⟨ns, hns, rfl⟩
  obtain ⟨_, hstands'⟩ := (exists_namespace_iff hg).mp ⟨ns', hns', rfl⟩
  obtain ⟨position, name, hid⟩ := NamespaceId.parent?_eq_some_iff.mp hparent
  obtain ⟨position', name', hid'⟩ := NamespaceId.parent?_eq_some_iff.mp hparent'
  apply h.home_inj hstands hstands'
  rw [hid, hid'] at hname ⊢
  obtain rfl : name = name' := hname
  simp [NamespaceId.path, NamespaceId.child]

theorem kindIn?_eq_some_iff (hc : g.Coherent) {name : String} {kind : Kind} :
    Scope.kindIn? g.namespaces x name = some kind ↔
      ∃ ns ∈ g.namespaces, ns.id = x ∧ (name, kind) ∈ ns.declared := by
  unfold Scope.kindIn?
  rw [Option.bind_eq_some_iff]
  constructor
  · rintro ⟨ns, hfind, hlookup⟩
    have hns := List.mem_of_find?_eq_some hfind
    refine ⟨ns, hns, by simpa using List.find?_some hfind, ?_⟩
    exact (Keyed.lookup_eq_some_iff_mem (hc.names_nodup ns hns)).mp hlookup
  · rintro ⟨ns, hns, rfl, hdeclared⟩
    refine ⟨ns, Keyed.find?_key_eq_some hc.ids_nodup hns, ?_⟩
    exact (Keyed.lookup_eq_some_iff_mem (hc.names_nodup ns hns)).mpr hdeclared

theorem child?_eq_some_iff (h : doc.PlainNames) (hg : Graph.ofDocument doc = .ok g)
    {name : String} {inner : NamespaceId} :
    Scope.child? g.namespaces outer name = some inner ↔
      ∃ ns ∈ g.namespaces, ns.id = inner ∧ ns.id.parent? = some outer ∧ ns.id.name = name := by
  unfold Scope.child?
  rw [Option.map_eq_some_iff]
  constructor
  · rintro ⟨ns, hfind, rfl⟩
    have hns := List.find?_some hfind
    simp only [Bool.and_eq_true, beq_iff_eq] at hns
    exact ⟨ns, List.mem_of_find?_eq_some hfind, rfl, hns⟩
  · rintro ⟨ns, hns, rfl, hparent, rfl⟩
    have hsome : (g.namespaces.find? fun other =>
        other.id.parent? == some outer && other.id.name == ns.id.name).isSome = true := by
      rw [List.find?_isSome]
      exact ⟨ns, hns, by simp [hparent]⟩
    obtain ⟨first, hfind⟩ := Option.isSome_iff_exists.mp hsome
    have hfirst := List.find?_some hfind
    simp only [Bool.and_eq_true, beq_iff_eq] at hfirst
    exact ⟨first, hfind, eq_of_siblings h hg (List.mem_of_find?_eq_some hfind) hns hfirst.1 hparent
      hfirst.2⟩

/-- Following a path finds the declaration that it leads to. -/
theorem lookupIn?_eq_some_iff (h : doc.PlainNames) (hg : Graph.ofDocument doc = .ok g)
    {target : Target} : Scope.lookupIn? g.namespaces x path = some target ↔
      ∃ t d, g.Leads x path t ∧ g.declaration? t = some d ∧ target = .declared t d.kind := by
  have hc := coherent_of_ofDocument hg
  induction path generalizing x with
  | nil =>
    constructor
    · nofun
    · rintro ⟨t, d, hleads, _⟩
      exact absurd rfl hleads.ne_nil
  | cons name rest ih =>
    by_cases hrest : rest = []
    · subst hrest
      rw [Scope.lookupIn?, Option.map_eq_some_iff]
      simp only [kindIn?_eq_some_iff hc]
      constructor
      · rintro ⟨kind, ⟨ns, hns, rfl, hdeclared⟩, rfl⟩
        obtain ⟨d, hd, rfl⟩ := (hc.declared_iff ⟨ns.id, name⟩ kind).mpr ⟨ns, hns, rfl, hdeclared⟩
        exact ⟨_, d, .declared hns hdeclared, hd, rfl⟩
      · rintro ⟨t, d, hleads, hd, rfl⟩
        cases hleads with
        | declared =>
          exact ⟨d.kind, (hc.declared_iff _ _).mp ⟨d, hd, rfl⟩, rfl⟩
        | through _ _ hinner => exact absurd rfl hinner.ne_nil
    · have hstep : Scope.lookupIn? g.namespaces x (name :: rest) =
          (Scope.child? g.namespaces x name).bind (Scope.lookupIn? g.namespaces · rest) := by
        rw [Scope.lookupIn?]
        exact hrest
      rw [hstep, Option.bind_eq_some_iff]
      simp only [child?_eq_some_iff h hg, ih]
      constructor
      · rintro ⟨_, ⟨ns, hns, rfl, hparent, rfl⟩, t, d, hleads, hd⟩
        exact ⟨t, d, .through hns hparent hleads, hd⟩
      · rintro ⟨t, d, hleads, hd⟩
        cases hleads with
        | declared => exact absurd rfl hrest
        | through hinner hparent hleads =>
          exact ⟨_, ⟨_, hinner, rfl, hparent, rfl⟩, t, d, hleads, hd⟩

/-- What a path leads to is declared. -/
theorem Leads.exists_declaration (hc : g.Coherent) (h : g.Leads x path t) :
    ∃ d, g.declaration? t = some d := by
  induction h with
  | @declared ns name kind hns hdeclared =>
    obtain ⟨d, hd, _⟩ := (hc.declared_iff ⟨ns.id, name⟩ kind).mpr ⟨ns, hns, rfl, hdeclared⟩
    exact ⟨d, hd⟩
  | through _ _ _ ih => exact ih

theorem lookupIn?_eq_none_iff (h : doc.PlainNames) (hg : Graph.ofDocument doc = .ok g) :
    Scope.lookupIn? g.namespaces x path = none ↔ ∀ t, ¬ g.Leads x path t := by
  constructor
  · intro hnone t hleads
    obtain ⟨d, hd⟩ := hleads.exists_declaration (coherent_of_ofDocument hg)
    have hsome := (lookupIn?_eq_some_iff h hg).mpr ⟨t, d, hleads, hd, rfl⟩
    rw [hnone] at hsome
    cases hsome
  · intro hnone
    refine Option.eq_none_iff_forall_ne_some.mpr fun target hfound => ?_
    obtain ⟨t, _, hleads, _⟩ := (lookupIn?_eq_some_iff h hg).mp hfound
    exact hnone t hleads

/-! ## The path from a namespace around -/

/-- A path from a place inside goes on from a path to that place. -/
theorem Leads.from_outside (hg : Graph.ofDocument doc = .ok g) {steps : List Segment}
    (h : g.Leads ⟨steps ++ outer.segments⟩ path t) :
    g.Leads outer (steps.reverse.map Segment.name ++ path) t := by
  induction steps generalizing path with
  | nil => exact h
  | cons step steps ih =>
    obtain ⟨ns, hns, hid⟩ := h.exists_start hg
    have hparent : ns.id.parent? = some ⟨steps ++ outer.segments⟩ := by rw [hid]; rfl
    have hname : ns.id.name = step.name := by rw [hid]; rfl
    rw [← hid] at h
    have hstep := ih (.through hns hparent h)
    rw [hname] at hstep
    simpa using hstep

theorem pathFrom_eq {steps : List Segment} (h : steps ++ outer.segments = t.home.segments) :
    t.pathFrom outer = steps.reverse.map Segment.name ++ [t.name] := by
  have hlength : t.home.segments.length - outer.segments.length = steps.length := by
    simp [← h]
  rw [DeclId.pathFrom, hlength, ← h, List.take_left]

theorem pathFrom_root (t : DeclId) :
    t.pathFrom .root = t.home.segments.reverse.map Segment.name ++ [t.name] :=
  pathFrom_eq (List.append_nil _)

/-- From each namespace around a declaration its path leads to it. -/
theorem leads_pathFrom (hg : Graph.ofDocument doc = .ok g) (hd : g.declaration? t = some d)
    (hwithin : t.home.Within outer) : g.Leads outer (t.pathFrom outer) t := by
  obtain ⟨steps, hsteps⟩ := NamespaceId.within_iff_suffix.mp hwithin
  obtain ⟨ns, hns, hid, hdeclared⟩ :=
    ((coherent_of_ofDocument hg).declared_iff t d.kind).mp ⟨d, hd, rfl⟩
  have hself := Leads.declared hns hdeclared
  rw [hid] at hself
  rw [pathFrom_eq hsteps]
  apply Leads.from_outside hg
  rw [hsteps]
  exact hself

/-- Where names are plain, the path of a namespace has all names on the way down. -/
theorem path_eq_map_name (h : doc.PlainNames) {scope : List Document.Namespace}
    (hs : Load.Stands doc x scope) : x.path = x.segments.reverse.map Segment.name := by
  rcases hs with hs | ⟨rfl, _⟩
  · induction hs with
    | root => rfl
    | child hscope hc ih =>
      rw [NamespaceId.path_child _ _ (h.named _ _ _ hscope _ (List.mem_of_getElem? hc)), ih]
      simp [NamespaceId.child]
  · decide

theorem path_append_name (h : doc.PlainNames) (hg : Graph.ofDocument doc = .ok g)
    (hd : g.declaration? t = some d) :
    t.home.path ++ [t.name] = t.pathFrom .root := by
  have hmem : t ∈ g.declarations.map (·.1) :=
    List.mem_map_of_mem (mem_declarations_of_declaration? hd)
  obtain ⟨ns, around, hstands, _⟩ := exists_stands_of_mem hg hmem
  rw [path_eq_map_name h hstands, pathFrom_root]

/-- The path to a declaration can be read back from its dotted form. -/
theorem split_pathFrom (h : doc.PlainNames) (hg : Graph.ofDocument doc = .ok g)
    (hd : g.declaration? t = some d) (hwithin : t.home.Within outer) :
    Text.split '.' (Text.join '.' (t.pathFrom outer)) = t.pathFrom outer := by
  obtain ⟨steps, hsteps⟩ := NamespaceId.within_iff_suffix.mp hwithin
  have hmem : t ∈ g.declarations.map (·.1) :=
    List.mem_map_of_mem (mem_declarations_of_declaration? hd)
  have hdots := not_dot_of_mem h hg hmem
  rw [path_append_name h hg hd, pathFrom_root] at hdots
  rw [pathFrom_eq hsteps]
  apply Text.split_join _ (List.append_ne_nil_of_right_ne_nil _ (List.cons_ne_nil _ _))
  intro name hname
  apply hdots
  simp only [List.mem_append, List.map_reverse, List.mem_reverse] at hname ⊢
  refine hname.imp_left fun hstep => ?_
  rw [← hsteps, List.map_append]
  exact List.mem_append_left _ hstep

/-! ## The innermost namespace -/

/-- Among the namespaces on a way from which a path leads on there is an innermost one. -/
theorem exists_innermost {scope : NamespaceId}
    (h : ∃ x u, NamespaceId.OnWay scope outer x ∧ g.Leads x path u) :
    ∃ x u, NamespaceId.OnWay scope outer x ∧ g.Leads x path u ∧
      ∀ y, NamespaceId.OnWay scope x y → ∀ v, ¬ g.Leads y path v := by
  obtain ⟨x, hx, hmin⟩ := (measure fun x : NamespaceId =>
      scope.segments.length - x.segments.length).wf.has_min
    {x | ∃ u, NamespaceId.OnWay scope outer x ∧ g.Leads x path u} h
  obtain ⟨u, hway, hleads⟩ := hx
  refine ⟨x, u, hway, hleads, fun y hy v hv => ?_⟩
  have hlt := hy.length_lt
  have hle := (NamespaceId.within_iff_suffix.mp hy.1).length_le
  have houter : NamespaceId.OnWay scope outer y := by
    refine ⟨hy.1, hy.2.1.trans hway.2.1, fun heq => ?_⟩
    have hway := hway.length_lt
    rw [heq] at hlt
    omega
  apply hmin y ⟨v, houter, hv⟩
  change scope.segments.length - y.segments.length < scope.segments.length - x.segments.length
  omega

/-- **A name is resolved from the inside out, and nothing that is declared is out of reach.** The
dotted path from a namespace down to a declaration means the declaration everywhere in the
namespace, unless it leads to a declaration from a namespace further in; then the innermost such
namespace decides. The qualified name means the declaration from the global namespace. -/
theorem lookup_innermost (h : doc.PlainNames) (hg : Graph.ofDocument doc = .ok g)
    (hd : g.declaration? t = some d) :
    (∀ outer scope : NamespaceId, t.home.Within outer → scope.Within outer →
      ((∀ x, NamespaceId.OnWay scope outer x → ∀ u, ¬ g.Leads x (t.pathFrom outer) u) →
        Scope.lookup? g.namespaces scope (Text.join '.' (t.pathFrom outer)) =
          some (.declared t d.kind)) ∧
      ((∃ x u, NamespaceId.OnWay scope outer x ∧ g.Leads x (t.pathFrom outer) u) →
        ∃ x u d', NamespaceId.OnWay scope outer x ∧ g.Leads x (t.pathFrom outer) u ∧
          (∀ y, NamespaceId.OnWay scope x y → ∀ v, ¬ g.Leads y (t.pathFrom outer) v) ∧
          g.declaration? u = some d' ∧
          Scope.lookup? g.namespaces scope (Text.join '.' (t.pathFrom outer)) =
            some (.declared u d'.kind))) ∧
    Scope.lookup? g.namespaces .root t.qualifiedName = some (.declared t d.kind) := by
  have hfinds : ∀ {outer scope x u d'}, t.home.Within outer → scope.Within x →
      g.Leads x (t.pathFrom outer) u → g.declaration? u = some d' →
      (∀ y, NamespaceId.OnWay scope x y → ∀ v, ¬ g.Leads y (t.pathFrom outer) v) →
      Scope.lookup? g.namespaces scope (Text.join '.' (t.pathFrom outer)) =
        some (.declared u d'.kind) := by
    intro outer scope x u d' hwithin hx hleads hd' hinner
    apply Scope.lookup?_eq_of_innermost hx
    · rw [split_pathFrom h hg hd hwithin]
      exact (lookupIn?_eq_some_iff h hg).mpr ⟨u, d', hleads, hd', rfl⟩
    · intro y hy
      rw [split_pathFrom h hg hd hwithin]
      exact (lookupIn?_eq_none_iff h hg).mpr (hinner y hy)
  refine ⟨fun outer scope hhome hscope => ⟨fun hinner => ?own, fun hsome => ?inner⟩, ?qualified⟩
  case own =>
    exact hfinds hhome hscope (leads_pathFrom hg hd hhome) hd hinner
  case inner =>
    obtain ⟨x, u, hway, hleads, hinner⟩ := exists_innermost hsome
    obtain ⟨d', hd'⟩ := hleads.exists_declaration (coherent_of_ofDocument hg)
    exact ⟨x, u, d', hway, hleads, hinner, hd', hfinds hhome hway.1 hleads hd' hinner⟩
  case qualified =>
    have hroot : t.home.Within .root :=
      NamespaceId.isWithin_iff.mp (NamespaceId.isWithin_root t.home)
    rw [DeclId.qualifiedName_eq_join, path_append_name h hg hd]
    exact hfinds hroot .refl (leads_pathFrom hg hd hroot) hd fun y hy =>
      absurd hy NamespaceId.not_onWay_root

/-- A program in which a path from inside a namespace starts out in a namespace further in. -/
def offices : Document :=
  { root :=
      { name := ""
        models := [⟨"Address", none, none, none, [], {}⟩]
        namespaces := [
          { name := "Billing"
            models := [⟨"Address", none, none, none, [], {}⟩]
            namespaces :=
              [{ name := "Shipping", models := [⟨"Rate", none, none, none, [], {}⟩] }] },
          { name := "Shipping"
            models := [⟨"Label", none, none, none, [], {}⟩] }] }
    diagnostics := [] }

/-- The first of its namespaces. -/
def billingOffice : NamespaceId := NamespaceId.root.child 1 "Billing"

/-- The declaration in the second. -/
def shippingLabel : DeclId := ⟨NamespaceId.root.child 2 "Shipping", "Label"⟩

/-- In `Billing` the name `Shipping.Label` starts out in `Billing.Shipping` and means the label of
the other `Shipping`; the name `Address` means the address of `Billing`, not the outer one. -/
theorem lookup_innermost_offices : ∃ g, Graph.ofDocument offices = .ok g ∧ offices.PlainNames ∧
      (g.declaration? shippingLabel).map (·.kind) = some .model ∧
      (∀ x, NamespaceId.OnWay billingOffice .root x → ∀ u, ¬ g.Leads x ["Shipping", "Label"] u) ∧
      Scope.lookup? g.namespaces billingOffice "Shipping.Label" =
        some (.declared shippingLabel .model) ∧
      ∃ x u d, NamespaceId.OnWay billingOffice .root x ∧ g.Leads x ["Address"] u ∧
        Scope.lookup? g.namespaces billingOffice "Address" = some (.declared u d) := by
  obtain ⟨g, hg, hlabel, haddress, hnone, hinner⟩ : ∃ g, Graph.ofDocument offices = .ok g ∧
      (g.declaration? shippingLabel).map (·.kind) = some .model ∧
      (g.declaration? ⟨.root, "Address"⟩).isSome = true ∧
      Scope.lookupIn? g.namespaces billingOffice ["Shipping", "Label"] = none ∧
      Scope.lookupIn? g.namespaces billingOffice ["Address"] =
        some (.declared ⟨billingOffice, "Address"⟩ .model) := ⟨_, rfl, by decide⟩
  have hplain : offices.PlainNames := by decide
  have hbilling : billingOffice.Within .root := .single rfl
  have hway : ∀ x, NamespaceId.OnWay billingOffice .root x → x = billingOffice := by
    intro x hx
    rcases hx.1.cases_head with heq | ⟨next, hnext, hroot⟩
    · exact heq.symm
    · cases hnext
      have hsegments := List.suffix_nil.mp (NamespaceId.within_iff_suffix.mp hroot)
      exact absurd ((NamespaceId.mk.injEq ..).mpr hsegments) hx.2.2
  have hleads : ∀ x, NamespaceId.OnWay billingOffice .root x →
      ∀ u, ¬ g.Leads x ["Shipping", "Label"] u := by
    intro x hx
    rw [hway x hx]
    exact (lookupIn?_eq_none_iff hplain hg).mp hnone
  obtain ⟨d, hd, hkind⟩ := Option.map_eq_some_iff.mp hlabel
  obtain ⟨d', hd'⟩ := Option.isSome_iff_exists.mp haddress
  obtain ⟨u, _, hu, _⟩ := (lookupIn?_eq_some_iff hplain hg).mp hinner
  have hownWay : NamespaceId.OnWay billingOffice .root billingOffice := ⟨.refl, hbilling, by decide⟩
  refine ⟨g, hg, hplain, hlabel, hleads, ?_, ?_⟩
  · rw [← hkind]
    exact ((lookup_innermost hplain hg hd).1 .root billingOffice (.single rfl) hbilling).1 hleads
  · obtain ⟨x, u, d, hx, hleads, _, _, hfound⟩ :=
      ((lookup_innermost hplain hg hd').1 .root billingOffice .refl hbilling).2 ⟨_, u, hownWay, hu⟩
    exact ⟨x, u, d.kind, hx, hleads, hfound⟩

end Graph

end ApiEmit
