/-
ApiEmit.Proofs.ArenaNames — a name means in an arena what it means in its graph.

The walk outwards from a namespace meets the names of its place, since each namespace stands behind
the one around it (`path?_eq`). A search for a name goes through the lists of the namespaces as the
one in the graph goes through the table of all of them, so it never leaves the arena and finds the
index of what the other finds (`lookup?_shows`).
-/
import ApiEmit.Proofs.Represented
import ApiEmit.Proofs.Resolved

namespace ApiEmit

namespace NamespaceId

theorem parent?_eq_none_iff {id : NamespaceId} : id.parent? = none ↔ id = .root := by
  obtain ⟨segments⟩ := id
  cases segments with
  | nil => exact ⟨fun _ => rfl, fun _ => rfl⟩
  | cons => exact ⟨nofun, nofun⟩

/-- The steps down to a place are those down to the place around it, and its own. -/
theorem map_name_of_parent?_eq_some {id outer : NamespaceId} (h : id.parent? = some outer) :
    id.segments.map (·.name) = id.name :: outer.segments.map (·.name) := by
  obtain ⟨position, name, rfl⟩ := parent?_eq_some_iff.mp h
  rfl

theorem enclosing_of_parent?_eq_none {id : NamespaceId} (h : id.parent? = none) :
    id.enclosing = [id] := by
  obtain rfl := parent?_eq_none_iff.mp h
  rfl

theorem enclosing_of_parent?_eq_some {id outer : NamespaceId} (h : id.parent? = some outer) :
    id.enclosing = id :: outer.enclosing := by
  obtain ⟨position, name, rfl⟩ := parent?_eq_some_iff.mp h
  rfl

end NamespaceId

namespace Arena

variable {L : Legend} {g : Graph} {a : Arena}

/-- An index shows what a name means. -/
inductive ShowsTarget (L : Legend) (types : List Node) : Target → TypeIndex → Prop
  | declared {d : DeclId} {kind : Kind} {i : TypeIndex} (h : L.IsDecl d i) :
      ShowsTarget L types (.declared d kind) i
  | intrinsic {k : Intrinsic} {i : TypeIndex} (h : L.HasInline types (.intrinsic k) i) :
      ShowsTarget L types (.intrinsic k) i

namespace Represents

/-! ## The way outwards -/

/-- The walk outwards meets the names of a place, behind which stands the empty one of the global
namespace. Every namespace that it has met stands behind where it is. -/
theorem enclosingFrom?_names (h : Represents L g a) {steps : Nat} (seen : List NamespaceIndex)
    {place : NamespaceId} {i : NamespaceIndex} (hi : L.IsPlace place i)
    (hsteps : i.position < steps) (hseen : ∀ j ∈ seen, i.position < j.position) :
    ∃ around, a.enclosingFrom? steps seen i = some around ∧
      around.map (·.name) = place.segments.map (·.name) ++ [""] := by
  induction steps generalizing seen place i with
  | zero => omega
  | succ steps ih =>
    obtain ⟨ns, node, _, rfl, hnode, hns⟩ := h.exists_namespace hi
    have hnew : i ∉ seen := fun hmem => Nat.lt_irrefl _ (hseen i hmem)
    rw [enclosingFrom?, if_neg (by simpa using hnew), hnode]
    obtain ⟨hplace, hparent⟩ | ⟨place, outer, hplace, hparent, houter⟩ :=
      Aligned.option_cases hns.parent
    · refine ⟨[node], by simp [hparent], ?_⟩
      have hroot : ns.id = .root := NamespaceId.parent?_eq_none_iff.mp hplace
      simp [hns.name, NamespaceId.name, hroot, NamespaceId.root]
    · have hlt : outer.position < i.position := h.parent_lt _ _ _ hnode hparent
      have hseen' : ∀ j ∈ i :: seen, outer.position < j.position := by
        intro j hj
        rcases List.mem_cons.mp hj with rfl | hj
        · exact hlt
        · exact Nat.lt_trans hlt (hseen j hj)
      obtain ⟨around, haround, hnames⟩ := ih (i :: seen) houter (by omega) hseen'
      refine ⟨node :: around, by simp [hparent, haround], ?_⟩
      rw [List.map_cons, hnames, hns.name, NamespaceId.map_name_of_parent?_eq_some hplace,
        List.cons_append]

/-- The path of a namespace is that of its place. -/
theorem path?_eq (h : Represents L g a) {place : NamespaceId} {i : NamespaceIndex}
    (hi : L.IsPlace place i) : a.path? i = some place.path := by
  obtain ⟨_, _, _, _, hnode, _⟩ := h.exists_namespace hi
  have hlt : i.position < a.namespaces.length := (List.getElem?_eq_some_iff.mp hnode).1
  obtain ⟨around, haround, hnames⟩ := h.enclosingFrom?_names [] hi (Nat.lt_succ_of_lt hlt)
    nofun
  unfold path? NamespaceId.path
  rw [haround, Option.bind_eq_bind, Option.bind_some, List.map_reverse, List.map_reverse, hnames]
  simp

theorem fullName?_eq (h : Represents L g a) {place : NamespaceId} {i : NamespaceIndex}
    (hi : L.IsPlace place i) : a.fullName? i = some place.fullName := by
  rw [fullName?, h.path?_eq hi]
  rfl

/-- A name is qualified in an arena as in its graph. -/
theorem qualify?_eq (h : Represents L g a) {place : NamespaceId} {i : NamespaceIndex}
    (hi : L.IsPlace place i) (name : String) : a.qualify? i name = some (place.qualify name) := by
  rw [qualify?, h.fullName?_eq hi]
  rfl

/-! ## The way inwards -/

/-- The entry of a place in the table of namespaces is the one at the index for it. -/
theorem find?_id_eq (h : Represents L g a) {ns : ApiEmit.Namespace} {i : Nat}
    (hns : g.namespaces[i]? = some ns) : g.namespaces.find? (·.id == ns.id) = some ns :=
  Keyed.find?_key_eq_some h.ids_nodup (List.mem_of_getElem? hns)

/-- A name leads from a namespace to what is declared under it there. -/
theorem lookup_declared (h : Represents L g a) {place : NamespaceId} {i : NamespaceIndex}
    (hi : L.IsPlace place i) (name : String) :
    ∃ found, (a.namespace? i).map (fun ns => ns.declared.lookup name) = some found ∧
      Option.Rel (ShowsTarget L a.types)
        ((Scope.kindIn? g.namespaces place name).map (.declared ⟨place, name⟩)) found := by
  obtain ⟨ns, node, hentry, rfl, hnode, hns⟩ := h.exists_namespace hi
  refine ⟨node.declared.lookup name, by rw [hnode]; rfl, ?_⟩
  rw [Scope.kindIn?, h.find?_id_eq hentry, Option.bind_some]
  have hsome : (node.declared.lookup name).isSome = (ns.declared.lookup name).isSome := by
    rw [Bool.eq_iff_iff, Keyed.isSome_lookup_iff, Keyed.isSome_lookup_iff, hns.names]
  cases hindex : node.declared.lookup name with
  | none =>
    rw [hindex, Option.isSome_none, eq_comm, Option.isSome_eq_false_iff,
      Option.isNone_iff_eq_none] at hsome
    rw [hsome]
    exact .none
  | some j =>
    rw [hindex, Option.isSome_some, eq_comm, Option.isSome_iff_exists] at hsome
    obtain ⟨kind, hkind⟩ := hsome
    rw [hkind]
    exact .some (.declared (hns.declared _ (Keyed.mem_of_lookup hindex)))

/-- The first of some namespaces with a name is the first of their places with the name. -/
theorem firstNamed?_isPlace (h : Represents L g a) (name : String) {places : List NamespaceId}
    {ids : List NamespaceIndex} (hids : List.Forall₂ L.IsPlace places ids) :
    ∃ found, a.firstNamed? name ids = some found ∧
      Option.Rel L.IsPlace (places.find? (·.name == name)) found := by
  induction hids with
  | nil => exact ⟨none, rfl, .none⟩
  | @cons place i places ids hi _ ih =>
    obtain ⟨ns, node, _, rfl, hnode, hns⟩ := h.exists_namespace hi
    rw [firstNamed?, hnode, Option.bind_eq_bind, Option.bind_some, hns.name, List.find?_cons]
    by_cases hname : ns.id.name = name
    · rw [if_pos hname, beq_iff_eq.mpr hname]
      exact ⟨some i, rfl, .some hi⟩
    · rw [if_neg hname, beq_eq_false_iff_ne.mpr hname]
      exact ih

/-- A segment leads from a namespace to its first child of that name. -/
theorem firstNamed?_children (h : Represents L g a) {ns : ApiEmit.Namespace} {node : Namespace}
    (hns : ShowsNamespace L g.operations ns node) (name : String) :
    ∃ found, a.firstNamed? name node.children = some found ∧
      Option.Rel L.IsPlace (Scope.child? g.namespaces ns.id name) found := by
  have hchild : Scope.child? g.namespaces ns.id name =
      (L.places.filter (·.parent? == some ns.id)).find? (·.name == name) := by
    rw [h.places, List.find?_filter, List.find?_map, Scope.child?]
    congr 2
    funext entry
    rw [Bool.eq_iff_iff]
    simp
  rw [hchild]
  exact h.firstNamed?_isPlace name hns.children

/-- A path leads from a namespace to the index of what it leads to in the graph. -/
theorem lookupIn?_shows (h : Represents L g a) (path : List String) {place : NamespaceId}
    {i : NamespaceIndex} (hi : L.IsPlace place i) :
    ∃ found, a.lookupIn? i path = some found ∧
      Option.Rel (ShowsTarget L a.types) (Scope.lookupIn? g.namespaces place path) found := by
  fun_induction Scope.lookupIn? g.namespaces place path generalizing i with
  | case1 => exact ⟨none, rfl, .none⟩
  | case2 place name => exact h.lookup_declared hi name
  | case3 place segment rest hrest ih =>
    obtain ⟨ns, node, _, rfl, hnode, hns⟩ := h.exists_namespace hi
    obtain ⟨found, hfound, hchild⟩ := h.firstNamed?_children hns segment
    rw [lookupIn?, hnode, Option.bind_eq_bind, Option.bind_some, hfound, Option.bind_eq_bind,
      Option.bind_some]
    · obtain ⟨hnone, rfl⟩ | ⟨inner, j, hinner, rfl, hj⟩ := Aligned.option_cases hchild
      · rw [hnone]
        exact ⟨none, rfl, .none⟩
      · rw [hinner, Option.bind_some]
        exact ih inner hj
    · exact hrest

/-- The search outwards finds what the one in the graph does. -/
theorem lookupAround?_shows (h : Represents L g a) (path : List String) {steps : Nat}
    {place : NamespaceId} {i : NamespaceIndex} (hi : L.IsPlace place i)
    (hsteps : i.position < steps) :
    ∃ found, a.lookupAround? path steps i = some found ∧
      Option.Rel (ShowsTarget L a.types)
        (place.enclosing.findSome? (Scope.lookupIn? g.namespaces · path)) found := by
  induction steps generalizing place i with
  | zero => omega
  | succ steps ih =>
    obtain ⟨found, hfound, hshows⟩ := h.lookupIn?_shows path hi
    obtain ⟨ns, node, _, rfl, hnode, hns⟩ := h.exists_namespace hi
    rw [lookupAround?, hfound, Option.bind_eq_bind, Option.bind_some]
    have henclosing : ns.id.enclosing.findSome? (Scope.lookupIn? g.namespaces · path) =
        (Scope.lookupIn? g.namespaces ns.id path).or
          ((ns.id.parent?.bind fun outer => outer.enclosing.findSome?
            (Scope.lookupIn? g.namespaces · path))) := by
      cases hparent : ns.id.parent? with
      | none =>
        rw [NamespaceId.enclosing_of_parent?_eq_none hparent, List.findSome?_cons]
        cases Scope.lookupIn? g.namespaces ns.id path <;> rfl
      | some outer =>
        rw [NamespaceId.enclosing_of_parent?_eq_some hparent, List.findSome?_cons]
        cases Scope.lookupIn? g.namespaces ns.id path <;> rfl
    rw [henclosing]
    obtain ⟨hnone, rfl⟩ | ⟨target, j, htarget, rfl, hj⟩ := Aligned.option_cases hshows
    · rw [hnone, Option.none_or, hnode]
      obtain ⟨hplace, hparent⟩ | ⟨place, outer, hplace, hparent, houter⟩ :=
        Aligned.option_cases hns.parent
      · refine ⟨none, by simp [hparent], ?_⟩
        rw [hplace]
        exact .none
      · have hlt : outer.position < i.position := h.parent_lt _ _ _ hnode hparent
        rw [hplace]
        simpa [hparent] using ih houter (by omega)
    · rw [htarget, Option.some_or]
      exact ⟨some j, rfl, .some hj⟩

/-! ## Names -/

/-- A bare name is that of an intrinsic in an arena when it is one in its graph. -/
theorem intrinsic_shows (h : Represents L g a) (name : String) :
    Option.Rel (ShowsTarget L a.types) (Scope.intrinsic? name)
      ((Intrinsic.ofName? name).bind Intrinsic.index?) := by
  unfold Scope.intrinsic?
  cases Intrinsic.ofName? name with
  | none => exact .none
  | some k =>
    cases k with
    | error => exact .none
    | null | void | never | unknown => exact .some (.intrinsic (h.intrinsics _ _ rfl))

/-- **A name leads in an arena to the index of what it means in the graph.** -/
theorem lookup?_shows (h : Represents L g a) {place : NamespaceId} {i : NamespaceIndex}
    (hi : L.IsPlace place i) (name : String) :
    ∃ found, a.lookup? i name = some found ∧
      Option.Rel (ShowsTarget L a.types) (Scope.lookup? g.namespaces place name) found := by
  obtain ⟨_, _, _, _, hnode, _⟩ := h.exists_namespace hi
  have hlt : i.position < a.namespaces.length := (List.getElem?_eq_some_iff.mp hnode).1
  obtain ⟨found, hfound, haround⟩ := h.lookupAround?_shows (Text.split '.' name) hi hlt
  unfold lookup? Scope.lookup?
  dsimp only
  rw [hfound, Option.bind_eq_bind, Option.bind_some]
  obtain ⟨hnone, rfl⟩ | ⟨target, j, htarget, rfl, hj⟩ := Aligned.option_cases haround
  · rw [hnone, Option.none_or]
    obtain ⟨hnone, hnone'⟩ | ⟨target, j, htarget, hindex, hj⟩ :=
      Aligned.option_cases (h.intrinsic_shows name)
    · rw [hnone, hnone', Option.none_or]
      exact h.lookupIn?_shows _ h.library
    · rw [htarget, hindex, Option.some_or]
      exact ⟨some j, rfl, .some hj⟩
  · rw [htarget, Option.some_or, Option.some_or]
    exact ⟨some j, rfl, .some hj⟩

end Represents

end Arena

end ApiEmit
