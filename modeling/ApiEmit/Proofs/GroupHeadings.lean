/-
ApiEmit.Proofs.GroupHeadings — the heading that an operation stands under.

The operations of an interface have its heading right in front of their group. The operations that
namespaces declare themselves make up a group without a heading, in the place where the first of
them comes: whatever heading was written last goes on above them (`lastHeading?_eq`). They have no
heading above them only if they come first (`stands_under_own_iff`), as those do that a namespace
declares beside its own interfaces (`exists_cons_of_own`), but not those of a namespace within.
-/
import ApiEmit.Proofs.ServiceDocument
import ApiEmit.Proofs.ServiceFiles

namespace ApiEmit

namespace Reference

variable {g : Graph} {s : Service} {op : Operation} {before : List Section}

/-! ## Headings -/

/-- The heading that a section is. -/
def Section.heading? : Section → Option String
  | .heading title => some title
  | .operation _ => none

/-- The sections of the document of a service. -/
def sections (s : Service) : List Section := (groups s).flatMap groupSections

/-- In the document of a service a section for an operation stands behind some others. -/
def StandsBehind (s : Service) (before : List Section) (op : Operation) : Prop :=
  before ++ [.operation op] <+: sections s

/-- The last heading among some sections. -/
def lastHeading? (before : List Section) : Option String :=
  (before.filterMap Section.heading?).getLast?

/-- The heading of the interface of an operation, for an interface with a name. -/
def ownHeading? (op : Operation) : Option String := op.interface.filter (· ≠ "")

/-- The heading of the group in front of the one that has none. -/
def strayHeading? (s : Service) : Option String :=
  (((groups s).map (·.1)).takeWhile (· ≠ "")).getLast?

theorem ownHeading?_eq (op : Operation) :
    ownHeading? op = if groupName op = "" then none else some (groupName op) := by
  unfold ownHeading? groupName
  cases op.interface with
  | none => rfl
  | some name => by_cases hname : name = "" <;> simp [hname]

/-! ## What stands in front of an operation -/

theorem filterMap_heading?_operations (operations : List Operation) :
    (operations.map Section.operation).filterMap Section.heading? = [] := by
  simp [Section.heading?]

/-- The titles of groups, without the empty one, are the headings. -/
theorem filterMap_heading?_groups (groups : List (String × List Operation)) :
    (groups.flatMap groupSections).filterMap Section.heading? =
      (groups.map (·.1)).filter (· ≠ "") := by
  induction groups with
  | nil => rfl
  | cons group rest ih =>
    rw [List.flatMap_cons, List.filterMap_append, ih, groupSections, List.filterMap_append,
      filterMap_heading?_operations, List.append_nil, List.map_cons]
    by_cases hname : group.1 = "" <;> simp [hname, Section.heading?]

/-- Among some operations there are no headings. -/
theorem of_map_operation_eq {operations : List Operation} {after : List Section}
    (h : operations.map Section.operation = before ++ .operation op :: after) :
    op ∈ operations ∧ before.filterMap Section.heading? = [] := by
  obtain ⟨earlier, later, rfl, rfl, hlater⟩ := List.map_eq_append_iff.mp h
  obtain ⟨_, _, rfl, heq, _⟩ := List.map_eq_cons_iff.mp hlater
  cases heq
  exact ⟨List.mem_append_right _ List.mem_cons_self, filterMap_heading?_operations earlier⟩

/-- In a group the heading, if it has one, stands in front of all operations. -/
theorem of_groupSections_eq {group : String × List Operation} {after : List Section}
    (h : groupSections group = before ++ .operation op :: after) :
    op ∈ group.2 ∧ before.filterMap Section.heading? = [group.1].filter (· ≠ "") := by
  unfold groupSections at h
  by_cases hname : group.1 = ""
  · rw [if_pos hname, List.nil_append] at h
    simpa [hname] using of_map_operation_eq h
  · rw [if_neg hname, List.singleton_append] at h
    cases before with
    | nil => cases (List.cons.inj h).1
    | cons first before =>
      obtain ⟨rfl, hoperations⟩ := List.cons.inj h
      obtain ⟨hop, hnone⟩ := of_map_operation_eq hoperations
      refine ⟨hop, ?_⟩
      simp [Section.heading?, hnone, hname]

/-- An entry of a list that is put together piece by piece stands in one of the pieces. -/
theorem exists_piece_of_flatMap_eq {α β : Type} {f : α → List β} {pieces : List α}
    {before after : List β} {b : β} (h : pieces.flatMap f = before ++ b :: after) :
    ∃ earlier piece later part rest, pieces = earlier ++ piece :: later ∧
      before = earlier.flatMap f ++ part ∧ f piece = part ++ b :: rest := by
  induction pieces generalizing before with
  | nil => simp at h
  | cons first others ih =>
    -- either a part of what stands before is left for the other pieces, or the first has the entry
    have hothers : ∀ left, before = f first ++ left → others.flatMap f = left ++ b :: after →
        ∃ earlier piece later part rest, first :: others = earlier ++ piece :: later ∧
          before = earlier.flatMap f ++ part ∧ f piece = part ++ b :: rest := by
      rintro left rfl hleft
      obtain ⟨earlier, piece, later, part, rest, rfl, rfl, hpiece⟩ := ih hleft
      exact ⟨first :: earlier, piece, later, part, rest, rfl, by simp, hpiece⟩
    rw [List.flatMap_cons] at h
    rcases List.append_eq_append_iff.mp h with ⟨left, hbefore, hleft⟩ | ⟨part, hfirst, hpart⟩
    · exact hothers left hbefore hleft
    · cases part with
      | nil => exact hothers [] (by simp [hfirst]) hpart.symm
      | cons first' rest =>
        obtain ⟨rfl, _⟩ := List.cons.inj hpart
        exact ⟨[], first, others, before, rest, rfl, rfl, hfirst⟩

/-- The headings in front of an operation are those of the groups up to its own. -/
theorem exists_titles_of_standsBehind (h : StandsBehind s before op) :
    ∃ earlier later, (groups s).map (·.1) = earlier ++ groupName op :: later ∧
      before.filterMap Section.heading? = (earlier ++ [groupName op]).filter (· ≠ "") := by
  obtain ⟨after, hafter⟩ := h
  rw [List.append_assoc, List.singleton_append] at hafter
  obtain ⟨earlier, group, later, part, rest, hgroups, rfl, hpart⟩ :=
    exists_piece_of_flatMap_eq hafter.symm
  obtain ⟨hop, hheadings⟩ := of_groupSections_eq hpart
  have hname : groupName op = group.1 := by
    have hgroup : group ∈ groups s := hgroups ▸ List.mem_append_right _ List.mem_cons_self
    rw [groups, Keyed.groupBy_eq, List.mem_map] at hgroup
    obtain ⟨name, _, rfl⟩ := hgroup
    simpa using (List.mem_filter.mp hop).2
  refine ⟨earlier.map (·.1), later.map (·.1), ?_, ?_⟩
  · rw [hgroups, List.map_append, List.map_cons, hname]
  · rw [List.filterMap_append, filterMap_heading?_groups, hheadings, List.filter_append, hname]

theorem map_groups (s : Service) :
    (groups s).map (·.1) = Keyed.keysOf groupName s.operations := by
  rw [groups, Keyed.groupBy_eq, List.map_map]
  exact List.map_id _

/-- An operation stands under the heading of its interface, or under the one of the group in front
of the operations that have none. -/
theorem lastHeading?_eq (h : StandsBehind s before op) :
    lastHeading? before = (ownHeading? op).or (strayHeading? s) := by
  obtain ⟨earlier, later, hgroups, hheadings⟩ := exists_titles_of_standsBehind h
  rw [lastHeading?, hheadings, ownHeading?_eq, List.filter_append, List.getLast?_append]
  by_cases hname : groupName op = ""
  · -- the groups in front of the one without a heading have headings
    have hnamed : ∀ title ∈ earlier, decide (title ≠ "") = true := by
      intro title htitle
      have hnodup := Keyed.keysOf_nodup groupName s.operations
      rw [← map_groups, hgroups, List.nodup_append] at hnodup
      exact decide_eq_true (hname ▸ hnodup.2.2 title htitle _ List.mem_cons_self)
    have hstray : strayHeading? s = earlier.getLast? := by
      rw [strayHeading?, hgroups, List.takeWhile_append_of_pos hnamed,
        List.takeWhile_cons_of_neg (by simp [hname]), List.append_nil]
    rw [hstray, List.filter_eq_self.mpr hnamed, if_pos hname]
    simp [hname]
  · simp [hname]

/-- Nothing stands above the operations without a heading exactly when the first operation is one
of them. -/
theorem strayHeading?_eq_none_iff :
    strayHeading? s = none ↔ s.operations.head?.bind ownHeading? = none := by
  have hfirst := Keyed.head?_keysOf groupName s.operations
  rw [← map_groups] at hfirst
  rw [strayHeading?, List.getLast?_eq_none_iff]
  cases hoperations : s.operations with
  | nil =>
    rw [hoperations] at hfirst
    rw [List.head?_eq_none_iff.mp hfirst]
    simp
  | cons op rest =>
    rw [hoperations] at hfirst
    obtain ⟨others, hothers⟩ := List.head?_eq_some_iff.mp hfirst
    rw [hothers]
    by_cases hname : groupName op = "" <;> simp [ownHeading?_eq, hname]

/-! ## The document -/

theorem flatMap_groupLines (g : Graph) (s : Service) :
    (groups s).flatMap (groupLines g (commonErrors g ((groups s).flatMap (·.2)))) =
      (sections s).flatMap (Section.lines g s.operations) := by
  rw [sections, List.flatMap_assoc]
  exact List.flatMap_congr fun group _ => groupLines_eq (groups_perm s) group

theorem filterMap_sections_perm (s : Service) :
    ((sections s).filterMap Section.operation?).Perm s.operations := by
  rw [sections, List.filterMap_flatMap]
  simp only [filterMap_groupSections]
  exact groups_perm s

theorem exists_standsBehind (h : op ∈ s.operations) : ∃ before, StandsBehind s before op := by
  obtain ⟨sec, hsection, hop⟩ :=
    List.mem_filterMap.mp ((filterMap_sections_perm s).mem_iff.mpr h)
  cases sec with
  | heading => cases hop
  | operation op' =>
    obtain rfl := Option.some.inj hop
    obtain ⟨before, after, hbefore⟩ := List.append_of_mem hsection
    exact ⟨before, after, by simp [hbefore]⟩

/-- Every operation stands under its own heading, or under none, exactly when the operations without
a heading come first. -/
theorem stands_under_own_iff :
    (∀ before op, StandsBehind s before op → lastHeading? before = ownHeading? op) ↔
      ((∃ op ∈ s.operations, ownHeading? op = none) →
        s.operations.head?.bind ownHeading? = none) := by
  rw [← strayHeading?_eq_none_iff]
  constructor
  · rintro hown ⟨op, hop, hnone⟩
    obtain ⟨before, hbefore⟩ := exists_standsBehind hop
    have hlast := hown before op hbefore
    rw [lastHeading?_eq hbefore, hnone] at hlast
    simpa using hlast
  · intro hfirst before op hbefore
    rw [lastHeading?_eq hbefore]
    cases hheading : ownHeading? op with
    | some => rfl
    | none =>
      have hop : op ∈ s.operations := by
        rw [← (filterMap_sections_perm s).mem_iff, List.mem_filterMap]
        exact ⟨.operation op, hbefore.subset (by simp), rfl⟩
      rw [hfirst ⟨op, hop, hheading⟩]
      rfl

/-- **Where the operations without a heading come first, every operation stands under its own.**
The document of a service has a section for each operation. The last heading above it is that of
its interface; above an operation without one it is the heading of the group in front of all of
these. So every operation has above it the heading of its own interface, or none, exactly when
there is no operation without a heading or the first operation is one. -/
theorem heading_above_operation (g : Graph) (s : Service) :
    serviceLines g s = introLines g s ++ (sections s).flatMap (Section.lines g s.operations) ++
        commonLines (commonErrors g ((groups s).flatMap (·.2))) ∧
      ((sections s).filterMap Section.operation?).Perm s.operations ∧
      (∀ before op, StandsBehind s before op →
        lastHeading? before = (ownHeading? op).or (strayHeading? s)) ∧
      ((∀ before op, StandsBehind s before op → lastHeading? before = ownHeading? op) ↔
        ((∃ op ∈ s.operations, ownHeading? op = none) →
          s.operations.head?.bind ownHeading? = none)) :=
  ⟨by rw [serviceLines, flatMap_groupLines], filterMap_sections_perm s,
    fun _ _ h => lastHeading?_eq h, stands_under_own_iff⟩

/-- A service with an interface, and a namespace in it with an operation of its own. -/
def orders : Document :=
  { root :=
      { name := ""
        namespaces := [
          { name := "Store", service := some ⟨none⟩
            interfaces := [⟨"Orders", [⟨"place", .post, "/orders", none, none, [], none, []⟩]⟩]
            namespaces := [
              { name := "Admin"
                operations := [⟨"audit", .get, "/audit", none, none, [], none, []⟩] }] }] }
    diagnostics := [] }

/-- An operation of a namespace can stand under the heading of an interface. -/
theorem heading_above_operation_orders : ∃ g, Graph.ofDocument orders = .ok g ∧
    g.hasErrors = false ∧ ∃ s ∈ documentedServices g, ∃ op ∈ s.operations, ∃ before,
      StandsBehind s before op ∧ op.interface = none ∧ lastHeading? before = some "Orders" := by
  have hg : Graph.ofDocument orders = .ok _ := rfl
  refine ⟨_, hg, rfl, _, .head _, _, .tail _ (.head _), [.heading "Orders", .operation _],
    ⟨[], rfl⟩, rfl, rfl⟩

/-! ## The order of the operations of a service -/

theorem filter_map_operations (outer : NamespaceId) (all : List Load.Site) :
    ((all.flatMap (·.operations)).map fun entry => (entry.1, entry.2.1)).filter
        (·.1.isWithin outer) =
      ((Load.sitesWithin outer all).flatMap (·.operations)).map fun entry =>
        (entry.1, entry.2.1) := by
  induction all with
  | nil => rfl
  | cons site rest ih =>
    have hhome : ∀ place ∈ site.operations.map fun entry => (entry.1, entry.2.1),
        place.1 = site.id := by
      intro place hplace
      obtain ⟨entry, hentry, rfl⟩ := List.mem_map.mp hplace
      exact Load.home_of_mem_operations hentry
    rw [List.flatMap_cons, List.map_append, List.filter_append, ih, Load.sitesWithin_cons]
    by_cases hwithin : site.id.isWithin outer = true
    · rw [if_pos hwithin, List.flatMap_cons, List.map_append]
      refine congrArg (· ++ _) (List.filter_eq_self.mpr fun place hplace => ?_)
      rw [hhome place hplace, hwithin]
    · rw [if_neg hwithin]
      refine congrArg (· ++ _) (List.filter_eq_nil_iff.mpr fun place hplace => ?_)
      rwa [hhome place hplace]

/-- The operations of a namespace and those below it stand as in the tree of the document. -/
theorem map_operationsWithin {doc : Document} (hg : Graph.ofDocument doc = .ok g)
    {t : Load.Site} (ht : t ∈ Load.sites .root doc.root) :
    (g.operationsWithin t.id).map (fun op => (op.home, op.interface)) =
      ((Load.sites t.id t.content).flatMap (·.operations)).map fun entry =>
        (entry.1, entry.2.1) := by
  obtain ⟨_, _, _, _, operations, _, _, _, hoperations, rfl⟩ := Load.ofDocument_eq_ok_iff.mp hg
  have hkey : ∀ {entry : NamespaceId × Option String × Document.Operation} {op : Operation},
      Load.operation (Load.table doc) entry.1 entry.2.1 entry.2.2 = .ok op →
        (op.home, op.interface) = (entry.1, entry.2.1) := by
    intro entry op h
    obtain ⟨_, _, _, _, _, _, rfl⟩ := Load.operation_eq_ok_iff.mp h
    rfl
  have hall := map_eq_of_mapM hkey hoperations
  rw [← Load.sitesWithin_sites ht, ← filter_map_operations, ← hall, List.filter_map]
  rfl

/-- The operations that a namespace declares itself come before all others within it. -/
theorem exists_cons_of_own {doc : Document} (hg : Graph.ofDocument doc = .ok g) {t : Load.Site}
    (ht : t ∈ Load.sites .root doc.root) (hop : op ∈ g.operationsWithin t.id)
    (hown : op.home = t.id ∧ op.interface = none) :
    ∃ first rest, g.operationsWithin t.id = first :: rest ∧ first.interface = none := by
  have hplaces := map_operationsWithin hg ht
  have hplace : (t.id, none) ∈ (g.operationsWithin t.id).map fun op => (op.home, op.interface) :=
    List.mem_map.mpr ⟨op, hop, Prod.ext hown.1 hown.2⟩
  rw [Load.sites_eq, List.flatMap_cons] at hplaces
  cases hwritten : t.content.operations with
  | nil =>
    -- then the operation would be in an interface, or further in
    rw [hplaces] at hplace
    obtain ⟨⟨home, interface, written⟩, hentry, heq⟩ := List.mem_map.mp hplace
    cases heq
    rcases List.mem_append.mp hentry with hhere | hbelow
    · simp [Load.Site.operations, hwritten] at hhere
    · obtain ⟨site, hsite, hentry⟩ := List.mem_flatMap.mp hbelow
      exact absurd (Load.home_of_mem_operations hentry).symm (Load.ne_of_mem_sitesBelow hsite)
  | cons written others =>
    rw [Load.Site.operations, hwritten] at hplaces
    obtain ⟨first, rest, heq, hfirst, _⟩ := List.map_eq_cons_iff.mp hplaces
    exact ⟨first, rest, heq, (Prod.mk.inj hfirst).2⟩

theorem operations_of_documented (hs : s ∈ documentedServices g) :
    s.operations = g.operationsWithin s.home := by
  unfold documentedServices at hs
  split at hs
  · obtain ⟨ns, _, hmark⟩ := List.mem_filterMap.mp hs
    obtain ⟨_, _, rfl⟩ := Option.map_eq_some_iff.mp hmark
    rfl
  · split at hs
    · cases hs
    · obtain rfl := List.mem_singleton.mp hs
      rfl

/-- **Operations that only a service itself declares stand under no foreign heading.** If no
namespace within the one of a service declares operations itself, and no interface lacks a name,
all operations of the service stand under their own headings. -/
theorem lastHeading?_of_ofDocument {doc : Document} (hg : Graph.ofDocument doc = .ok g)
    (hs : s ∈ documentedServices g)
    (hown : ∀ op ∈ s.operations, ownHeading? op = none → op.home = s.home ∧ op.interface = none)
    (h : StandsBehind s before op) : lastHeading? before = ownHeading? op := by
  refine stands_under_own_iff.mpr ?_ before op h
  rintro ⟨op, hop, hnone⟩
  obtain ⟨ns, _, hscope⟩ := exists_scope_of_documented hg hs
  have hsite : ⟨s.home, ns⟩ ∈ Load.sites .root doc.root := Load.mem_sites_of_scope hscope
  have hplace := hown op hop hnone
  rw [operations_of_documented hs] at hop ⊢
  obtain ⟨first, rest, heq, hfirst⟩ := exists_cons_of_own hg hsite hop hplace
  rw [heq]
  simp [ownHeading?, hfirst]

end Reference

end ApiEmit
