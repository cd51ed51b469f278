/-
ApiEmit.Proofs.Sites — the tree of namespaces as a list of sites.

A document lists its namespaces as a tree, and loading flattens the tree to a list in which each
namespace has its place as its identity. Three facts carry all that is proved about names: a place
occurs once (`sites_ids_nodup`), what stands below a place is marked as such
(`suffix_of_mem_sites`), and the sites whose parent is a given site are its children, in their
order (`filter_parent_sites`).
-/
import ApiEmit.Graph.Load
import Mathlib.Data.List.Nodup

namespace ApiEmit

/-! ## Places -/

namespace NamespaceId

theorem parent?_child (id : NamespaceId) (position : Nat) (name : String) :
    (id.child position name).parent? = some id := rfl

theorem parent?_eq_some_iff {id parent : NamespaceId} :
    id.parent? = some parent ↔ ∃ position name, id = parent.child position name := by
  constructor
  · obtain ⟨segments⟩ := id
    cases segments with
    | nil => intro h; cases h
    | cons segment rest =>
      intro h
      exact ⟨segment.position, segment.name, by rw [← Option.some.inj h]; rfl⟩
  · intro h
    obtain ⟨position, name, rfl⟩ := h
    exact parent?_child parent position name

theorem suffix_child (id : NamespaceId) (position : Nat) (name : String) :
    id.segments <:+ (id.child position name).segments :=
  List.suffix_cons _ _

theorem length_child (id : NamespaceId) (position : Nat) (name : String) :
    (id.child position name).segments.length = id.segments.length + 1 := rfl

theorem child_inj {id id' : NamespaceId} {position position' : Nat} {name name' : String} :
    id.child position name = id'.child position' name' ↔
      id = id' ∧ position = position' ∧ name = name' := by
  obtain ⟨segments⟩ := id
  obtain ⟨segments'⟩ := id'
  simp only [child, NamespaceId.mk.injEq, List.cons.injEq, Segment.mk.injEq]
  constructor
  · intro h
    obtain ⟨⟨hpos, hname⟩, hrest⟩ := h
    exact ⟨hrest, hpos, hname⟩
  · intro h
    obtain ⟨hrest, hpos, hname⟩ := h
    exact ⟨⟨hpos, hname⟩, hrest⟩

/-- All places lie within the global namespace. -/
theorem isWithin_root (id : NamespaceId) : id.isWithin .root = true :=
  List.isSuffixOf_iff_suffix.mpr (List.nil_suffix ..)

/-- A place lies below one child of a place only. -/
theorem position_eq_of_suffix {id : NamespaceId} {position position' : Nat} {name name' : String}
    {segments : List Segment} (h : (id.child position name).segments <:+ segments)
    (h' : (id.child position' name').segments <:+ segments) : position = position' := by
  have hsuffix := List.suffix_of_suffix_length_le h h' (Nat.le_refl _)
  have heq := hsuffix.eq_of_length rfl
  have hid : id.child position name = id.child position' name' := by
    rw [← NamespaceId.mk.injEq] at heq
    exact heq
  exact (child_inj.mp hid).2.1

end NamespaceId

namespace Load

/-! ## The tree and its sites -/

theorem sites_eq (id : NamespaceId) (ns : Document.Namespace) :
    sites id ns = ⟨id, ns⟩ :: sitesBelow id 1 ns.namespaces := by
  cases ns
  rfl

/-- Induction over a tree of namespaces: over a namespace by way of its children, and over some
children by way of the first and the rest. -/
theorem sites_induction {motive : NamespaceId → Document.Namespace → Prop}
    {motiveBelow : NamespaceId → Nat → List Document.Namespace → Prop}
    (node : ∀ id ns, motiveBelow id 1 ns.namespaces → motive id ns)
    (none : ∀ id position, motiveBelow id position [])
    (more : ∀ id position ns rest, motive (id.child position ns.name) ns →
      motiveBelow id (position + 1) rest → motiveBelow id position (ns :: rest)) :
    (∀ id ns, motive id ns) ∧ ∀ id position rest, motiveBelow id position rest := by
  apply sites.mutual_induct
  · intro id name doc service servers children models enums unions scalars operations interfaces h
    exact node id ⟨name, doc, service, servers, children, models, enums, unions, scalars,
      operations, interfaces⟩ h
  · exact none
  · exact more

/-- The sites of some children themselves, counted from a position. -/
def childSites (id : NamespaceId) (position : Nat) : List Document.Namespace → List Site
  | [] => []
  | ns :: rest => ⟨id.child position ns.name, ns⟩ :: childSites id (position + 1) rest

theorem mem_childSites_iff {id : NamespaceId} {position : Nat} {children : List Document.Namespace}
    {s : Site} :
    s ∈ childSites id position children ↔
      ∃ i : Nat, children[i]? = some s.content ∧ s.id = id.child (position + i) s.content.name := by
  induction children generalizing position with
  | nil => simp [childSites]
  | cons ns rest ih =>
    unfold childSites
    rw [List.mem_cons, ih]
    constructor
    · intro h
      rcases h with rfl | ⟨i, hi, hid⟩
      · exact ⟨0, rfl, rfl⟩
      · refine ⟨i + 1, hi, ?_⟩
        rw [hid]
        congr 1
        omega
    · intro h
      obtain ⟨i, hi, hid⟩ := h
      cases i with
      | zero =>
        obtain ⟨sid, content⟩ := s
        cases hi
        dsimp only at hid
        subst hid
        exact Or.inl rfl
      | succ i =>
        refine Or.inr ⟨i, hi, ?_⟩
        rw [hid]
        congr 1
        omega

/-- All sites of a tree stand at its place or below, and those of some children below one of
these. -/
theorem suffix_of_mem :
    (∀ id ns, ∀ s ∈ sites id ns, id.segments <:+ s.id.segments) ∧
      ∀ id position rest, ∀ s ∈ sitesBelow id position rest,
        ∃ p name, position ≤ p ∧ (id.child p name).segments <:+ s.id.segments := by
  apply sites_induction
  · intro id ns ih s hs
    rw [sites_eq, List.mem_cons] at hs
    rcases hs with rfl | hs
    · exact List.suffix_refl _
    · obtain ⟨p, name, _, hsuffix⟩ := ih s hs
      exact (id.suffix_child p name).trans hsuffix
  · intro id position s hs
    cases hs
  · intro id position ns rest ihFirst ihRest s hs
    rw [sitesBelow, List.mem_append] at hs
    rcases hs with hs | hs
    · exact ⟨position, ns.name, Nat.le_refl _, ihFirst s hs⟩
    · obtain ⟨p, name, hp, hsuffix⟩ := ihRest s hs
      exact ⟨p, name, by omega, hsuffix⟩

theorem suffix_of_mem_sites {id : NamespaceId} {ns : Document.Namespace} {s : Site}
    (h : s ∈ sites id ns) : id.segments <:+ s.id.segments :=
  suffix_of_mem.1 id ns s h

theorem suffix_of_mem_sitesBelow {id : NamespaceId} {position : Nat}
    {children : List Document.Namespace} {s : Site} (h : s ∈ sitesBelow id position children) :
    ∃ p name, position ≤ p ∧ (id.child p name).segments <:+ s.id.segments :=
  suffix_of_mem.2 id position children s h

/-- A site below a place stands deeper than the place. -/
theorem length_lt_of_mem_sitesBelow {id : NamespaceId} {position : Nat}
    {children : List Document.Namespace} {s : Site} (h : s ∈ sitesBelow id position children) :
    id.segments.length < s.id.segments.length := by
  obtain ⟨p, name, _, hsuffix⟩ := suffix_of_mem_sitesBelow h
  have hle := hsuffix.length_le
  rw [NamespaceId.length_child] at hle
  omega

/-- No site below a place stands at the place. -/
theorem ne_of_mem_sitesBelow {id : NamespaceId} {position : Nat}
    {children : List Document.Namespace} {s : Site} (h : s ∈ sitesBelow id position children) :
    s.id ≠ id := by
  rintro rfl
  exact absurd (length_lt_of_mem_sitesBelow h) (Nat.lt_irrefl _)

/-- Nothing stands below a child and below a later child. -/
theorem not_suffix_of_mem_sitesBelow {id : NamespaceId} {position : Nat} {name : String}
    {children : List Document.Namespace} {s : Site}
    (h : s ∈ sitesBelow id (position + 1) children) {segments : List Segment}
    (hs : s.id.segments <:+ segments) : ¬ (id.child position name).segments <:+ segments := by
  intro hfirst
  obtain ⟨p, name', hp, hsuffix⟩ := suffix_of_mem_sitesBelow h
  have := NamespaceId.position_eq_of_suffix hfirst (hsuffix.trans hs)
  omega

/-- No site below a later child stands in the tree of a child. -/
theorem not_mem_ids_of_mem_sitesBelow {id : NamespaceId} {position : Nat} {name : String}
    {ns : Document.Namespace} {children : List Document.Namespace} {s : Site}
    (h : s ∈ sitesBelow id (position + 1) children) :
    s.id ∉ (sites (id.child position name) ns).map (·.id) := by
  intro hmem
  obtain ⟨earlier, hearlier, heq⟩ := List.mem_map.mp hmem
  exact not_suffix_of_mem_sitesBelow h (List.suffix_refl _) (heq ▸ suffix_of_mem_sites hearlier)

/-! ## Each place once -/

theorem ids_nodup :
    (∀ id ns, ((sites id ns).map (·.id)).Nodup) ∧
      ∀ id position rest, ((sitesBelow id position rest).map (·.id)).Nodup := by
  apply sites_induction
  · intro id ns ih
    rw [sites_eq, List.map_cons, List.nodup_cons]
    refine ⟨fun h => ?_, ih⟩
    obtain ⟨s, hs, hid⟩ := List.mem_map.mp h
    exact ne_of_mem_sitesBelow hs hid
  · intro id position
    exact List.nodup_nil
  · intro id position ns rest ihFirst ihRest
    rw [sitesBelow, List.map_append, List.nodup_append]
    refine ⟨ihFirst, ihRest, fun place hplace other hother heq => ?_⟩
    obtain ⟨s, hs, rfl⟩ := List.mem_map.mp hother
    exact not_mem_ids_of_mem_sitesBelow hs (heq ▸ hplace)

theorem sites_ids_nodup (id : NamespaceId) (ns : Document.Namespace) :
    ((sites id ns).map (·.id)).Nodup :=
  ids_nodup.1 id ns

/-! ## Children -/

/-- The sites whose parent is a certain place. -/
def sitesIn (parent : NamespaceId) (all : List Site) : List Site :=
  all.filter fun s => s.id.parent? == some parent

theorem sitesIn_append (parent : NamespaceId) (all all' : List Site) :
    sitesIn parent (all ++ all') = sitesIn parent all ++ sitesIn parent all' :=
  List.filter_append ..

/-- No site has a parent at a place where neither it stands nor what is around it. -/
theorem sitesIn_eq_nil {parent : NamespaceId} {all : List Site}
    (h : ∀ s ∈ all, ¬ parent.segments <:+ s.id.segments) : sitesIn parent all = [] := by
  unfold sitesIn
  rw [List.filter_eq_nil_iff]
  intro s hs hparent
  rw [beq_iff_eq, NamespaceId.parent?_eq_some_iff] at hparent
  obtain ⟨position, name, hid⟩ := hparent
  apply h s hs
  rw [hid]
  exact parent.suffix_child position name

/-- A tree is not in a place that lies at or below its own. -/
theorem sitesIn_cons_of_suffix {id parent : NamespaceId} {ns : Document.Namespace}
    {rest : List Site} (h : id.segments <:+ parent.segments) :
    sitesIn parent (⟨id, ns⟩ :: rest) = sitesIn parent rest := by
  unfold sitesIn
  rw [List.filter_cons_of_neg]
  intro hparent
  rw [beq_iff_eq, NamespaceId.parent?_eq_some_iff] at hparent
  obtain ⟨position, name, hid⟩ := hparent
  dsimp only at hid
  have hle := h.length_le
  rw [hid, NamespaceId.length_child] at hle
  omega

/-- The sites right below a place are the children of the namespace there. -/
theorem sitesIn_sitesBelow (id : NamespaceId) (position : Nat)
    (children : List Document.Namespace) :
    sitesIn id (sitesBelow id position children) = childSites id position children := by
  induction children generalizing position with
  | nil => rfl
  | cons ns rest ih =>
    rw [sitesBelow, sitesIn_append, ih, sites_eq]
    have hbelow : sitesIn id (sitesBelow (id.child position ns.name) 1 ns.namespaces) = [] := by
      unfold sitesIn
      rw [List.filter_eq_nil_iff]
      intro s hs hparent
      have hlt := length_lt_of_mem_sitesBelow hs
      rw [beq_iff_eq, NamespaceId.parent?_eq_some_iff] at hparent
      obtain ⟨p, name, hid⟩ := hparent
      rw [hid, NamespaceId.length_child, NamespaceId.length_child] at hlt
      omega
    have hfirst : sitesIn id (⟨id.child position ns.name, ns⟩ ::
        sitesBelow (id.child position ns.name) 1 ns.namespaces) =
          [⟨id.child position ns.name, ns⟩] := by
      unfold sitesIn at hbelow ⊢
      rw [List.filter_cons_of_pos, hbelow]
      exact beq_self_eq_true _
    rw [hfirst]
    rfl

theorem filter_parent :
    (∀ id ns, ∀ t ∈ sites id ns,
      sitesIn t.id (sites id ns) = childSites t.id 1 t.content.namespaces) ∧
    ∀ id position rest, ∀ t ∈ sitesBelow id position rest,
      sitesIn t.id (sitesBelow id position rest) = childSites t.id 1 t.content.namespaces := by
  apply sites_induction
  · intro id ns ih t ht
    have hsuffix := suffix_of_mem_sites ht
    rw [sites_eq] at ht ⊢
    rw [sitesIn_cons_of_suffix hsuffix]
    rcases List.mem_cons.mp ht with rfl | ht
    · exact sitesIn_sitesBelow id 1 ns.namespaces
    · exact ih t ht
  · intro id position t ht
    cases ht
  · intro id position ns rest ihFirst ihRest t ht
    rw [sitesBelow, sitesIn_append]
    rw [sitesBelow, List.mem_append] at ht
    -- the children of a site stand below the same child of `id` as the site itself
    rcases ht with ht | ht
    · have hnone : sitesIn t.id (sitesBelow id (position + 1) rest) = [] := by
        apply sitesIn_eq_nil
        intro s hs hts
        exact not_suffix_of_mem_sitesBelow hs (List.suffix_refl _)
          ((suffix_of_mem_sites ht).trans hts)
      rw [ihFirst t ht, hnone, List.append_nil]
    · have hnone : sitesIn t.id (sites (id.child position ns.name) ns) = [] := by
        apply sitesIn_eq_nil
        intro s hs hts
        exact not_suffix_of_mem_sitesBelow ht hts (suffix_of_mem_sites hs)
      rw [ihRest t ht, hnone, List.nil_append]

/-- The sites whose parent is a site are its children, in their order. -/
theorem filter_parent_sites {id : NamespaceId} {ns : Document.Namespace} {t : Site}
    (ht : t ∈ sites id ns) :
    sitesIn t.id (sites id ns) = childSites t.id 1 t.content.namespaces :=
  filter_parent.1 id ns t ht

/-- The children of a site are sites. -/
theorem mem_sites_of_mem_childSites {id : NamespaceId} {ns : Document.Namespace} {t s : Site}
    (ht : t ∈ sites id ns) (hs : s ∈ childSites t.id 1 t.content.namespaces) :
    s ∈ sites id ns := by
  rw [← filter_parent_sites ht] at hs
  exact List.mem_of_mem_filter hs

/-! ## Subtrees -/

/-- The sites at a place and below it. -/
def sitesWithin (outer : NamespaceId) (all : List Site) : List Site :=
  all.filter (·.id.isWithin outer)

theorem sitesWithin_cons (outer : NamespaceId) (s : Site) (all : List Site) :
    sitesWithin outer (s :: all) =
      if s.id.isWithin outer then s :: sitesWithin outer all else sitesWithin outer all :=
  List.filter_cons

theorem sitesWithin_eq_nil {outer : NamespaceId} {all : List Site}
    (h : ∀ s ∈ all, ¬ outer.segments <:+ s.id.segments) : sitesWithin outer all = [] := by
  refine List.filter_eq_nil_iff.mpr fun s hs hwithin => h s hs ?_
  exact List.isSuffixOf_iff_suffix.mp hwithin

theorem filter_within :
    (∀ id ns, ∀ t ∈ sites id ns, sitesWithin t.id (sites id ns) = sites t.id t.content) ∧
    ∀ id position rest, ∀ t ∈ sitesBelow id position rest,
      sitesWithin t.id (sitesBelow id position rest) = sites t.id t.content := by
  apply sites_induction
  · intro id ns ih t ht
    by_cases hroot : t = ⟨id, ns⟩
    · subst hroot
      exact List.filter_eq_self.mpr fun s hs =>
        List.isSuffixOf_iff_suffix.mpr (suffix_of_mem_sites hs)
    · rw [sites_eq] at ht ⊢
      have hbelow := (List.mem_cons.mp ht).resolve_left hroot
      have hlt := length_lt_of_mem_sitesBelow hbelow
      rw [sitesWithin_cons, if_neg]
      · exact ih t hbelow
      · intro hwithin
        have hle := (List.isSuffixOf_iff_suffix.mp hwithin).length_le
        dsimp only at hle
        omega
  · intro id position t ht
    cases ht
  · intro id position ns rest ihFirst ihRest t ht
    rw [sitesBelow, sitesWithin, List.filter_append, ← sitesWithin, ← sitesWithin]
    rw [sitesBelow, List.mem_append] at ht
    -- what lies within a site lies below the same child of `id`
    rcases ht with ht | ht
    · have hnone : sitesWithin t.id (sitesBelow id (position + 1) rest) = [] :=
        sitesWithin_eq_nil fun s hs hts => not_suffix_of_mem_sitesBelow hs (List.suffix_refl _)
          ((suffix_of_mem_sites ht).trans hts)
      rw [ihFirst t ht, hnone, List.append_nil]
    · have hnone : sitesWithin t.id (sites (id.child position ns.name) ns) = [] :=
        sitesWithin_eq_nil fun s hs hts =>
          not_suffix_of_mem_sitesBelow ht hts (suffix_of_mem_sites hs)
      rw [ihRest t ht, hnone, List.nil_append]

/-- The sites at a site and below it are those of its own tree, in their order. -/
theorem sitesWithin_sites {id : NamespaceId} {ns : Document.Namespace} {t : Site}
    (ht : t ∈ sites id ns) : sitesWithin t.id (sites id ns) = sites t.id t.content :=
  filter_within.1 id ns t ht

end Load

end ApiEmit
