/-
ApiEmit.Proofs.Naming — when the Python names of declarations are different.

A declaration keeps its own name unless another has it too, and then the path of its namespace
stands in front (`nameOf_eq`). Joining a path with underscores forgets where its steps end, so
names are told apart only where no step has an underscore of its own: `A_B_X` is `X` in `B` in
`A`, and it is `X` in `A_B`. From plain names the steps can be read back (`words_identifier`), and
then different declarations have different names.
-/
import ApiEmit.Proofs.References

namespace ApiEmit

namespace Python

/-! ## Words of an identifier -/

/-- A name of ASCII letters and digits. -/
def IsPlain (name : String) : Prop :=
  name ≠ "" ∧ ∀ c ∈ name.toList, c.isAlphanum = true

instance (name : String) : Decidable (IsPlain name) :=
  decidable_of_iff (name ≠ "" ∧ name.toList.all Char.isAlphanum = true)
    (and_congr_right' List.all_eq_true)

/-- The parts of a text between underscores, without the empty ones. -/
def words (cs : List Char) : List (List Char) :=
  (cs.splitOn '_').filter (· ≠ [])

theorem words_underscore_cons (cs : List Char) : words ('_' :: cs) = words cs := by
  have hsplit : ('_' :: cs).splitOnP (· == '_') =
      [].splitOnP (· == '_') ++ cs.splitOnP (· == '_') := List.splitOnP_append_cons [] cs rfl
  unfold words List.splitOn
  rw [hsplit, List.filter_append]
  simp

theorem words_append_underscore (cs : List Char) : words (cs ++ ['_']) = words cs := by
  have hsplit : (cs ++ ['_']).splitOnP (· == '_') =
      cs.splitOnP (· == '_') ++ [].splitOnP (· == '_') := List.splitOnP_append_cons cs [] rfl
  unfold words List.splitOn
  rw [hsplit, List.filter_append]
  simp

/-- Plain names can be read back from the text that joins them. -/
theorem words_intercalate {names : List String} (hplain : ∀ name ∈ names, IsPlain name)
    (hne : names ≠ []) :
    words (String.intercalate "_" names).toList = names.map String.toList := by
  have hunderscore : ∀ cs ∈ names.map String.toList, '_' ∉ cs := by
    intro cs hcs hmem
    obtain ⟨name, hname, rfl⟩ := List.mem_map.mp hcs
    exact absurd ((hplain name hname).2 '_' hmem) (by decide)
  have hfull : ∀ cs ∈ names.map String.toList, decide (cs ≠ []) = true := by
    intro cs hcs
    obtain ⟨name, hname, rfl⟩ := List.mem_map.mp hcs
    simpa using (hplain name hname).1
  have hsplit := List.splitOn_intercalate '_' hunderscore (by simpa using hne)
  unfold words
  rw [String.toList_intercalate]
  have hseparator : "_".toList = ['_'] := rfl
  rw [hseparator, hsplit, List.filter_eq_self.mpr hfull]

/-- A text that joins plain names has only characters of identifiers. -/
theorem isNameChar_of_mem_intercalate {names : List String}
    (hplain : ∀ name ∈ names, IsPlain name) {c : Char}
    (hc : c ∈ (String.intercalate "_" names).toList) : isNameChar c = true := by
  rw [String.toList_intercalate] at hc
  induction names with
  | nil => simp at hc
  | cons first rest ih =>
    have hfirst : c ∈ first.toList → isNameChar c = true := fun hmem => by
      have halphanum := (hplain first List.mem_cons_self).2 c hmem
      simp [isNameChar, halphanum]
    cases rest with
    | nil => exact hfirst (by simpa using hc)
    | cons second rest =>
      rw [List.map_cons, List.map_cons, List.intercalate_cons_cons, List.mem_append,
        List.mem_append] at hc
      rcases hc with (hc | hc) | hc
      · exact hfirst hc
      · have hunderscore : c = '_' := by simpa using hc
        simp [isNameChar, hunderscore]
      · exact ih (fun name hname => hplain name (List.mem_cons_of_mem _ hname)) hc

/-- What an identifier gets in front does not change its words. -/
theorem words_identifierChars {cs : List Char} (hchars : ∀ c ∈ cs, isNameChar c = true) :
    words (identifierChars cs) = words cs := by
  have hmap : cs.map (fun c => if isNameChar c then c else '_') = cs := by
    rw [List.map_congr_left fun c hc => if_pos (hchars c hc), List.map_id']
  unfold identifierChars
  rw [hmap]
  cases cs with
  | nil => rfl
  | cons c rest =>
    dsimp only
    split
    · exact words_underscore_cons (c :: rest)
    · rfl

/-- Neither does what it gets behind. -/
theorem words_identifier {name : String} (hne : name ≠ "")
    (hchars : ∀ c ∈ name.toList, isNameChar c = true) :
    words (identifier name).toList = words name.toList := by
  have hwords := words_identifierChars hchars
  unfold identifier
  rw [if_neg hne]
  dsimp only
  split
  · have hunderscore : "_".toList = ['_'] := rfl
    rw [String.toList_append, String.toList_ofList, hunderscore, words_append_underscore, hwords]
  · rw [String.toList_ofList, hwords]

/-- Plain names that are joined to an identifier can be read back from it. -/
theorem words_identifier_intercalate {names : List String}
    (hplain : ∀ name ∈ names, IsPlain name) (hne : names ≠ []) :
    words (identifier (String.intercalate "_" names)).toList = names.map String.toList := by
  have hwords := words_intercalate hplain hne
  have htext : String.intercalate "_" names ≠ "" := by
    intro hempty
    rw [hempty] at hwords
    have hnil : names.map String.toList = [] := hwords.symm
    exact hne (List.map_eq_nil_iff.mp hnil)
  rw [words_identifier htext fun c hc => isNameChar_of_mem_intercalate hplain hc, hwords]

theorem identifier_intercalate_inj {names names' : List String}
    (hplain : ∀ name ∈ names, IsPlain name) (hne : names ≠ [])
    (hplain' : ∀ name ∈ names', IsPlain name) (hne' : names' ≠ [])
    (h : identifier (String.intercalate "_" names) = identifier (String.intercalate "_" names')) :
    names = names' := by
  have hwords := words_identifier_intercalate hplain hne
  rw [h, words_identifier_intercalate hplain' hne'] at hwords
  exact (List.map_injective_iff.mpr fun _ _ => String.toList_inj.mp) hwords.symm

end Python

namespace Pydantic

namespace NameTable

variable {decls : List DeclId} {id : DeclId}

/-! ## The name of a declaration -/

/-- A declaration has its name in common with another. -/
def Shares (decls : List DeclId) (id : DeclId) : Prop :=
  id.name ≠ "" ∧ ∃ other ∈ decls, other ≠ id ∧ other.name = id.name

instance (decls : List DeclId) (id : DeclId) : Decidable (Shares decls id) :=
  inferInstanceAs (Decidable (id.name ≠ "" ∧ ∃ other ∈ decls, other ≠ id ∧ other.name = id.name))

/-- What the Python name of a declaration is joined from. -/
def steps (decls : List DeclId) (id : DeclId) : List String :=
  if Shares decls id then id.home.path ++ [id.name] else [id.name]

/-- The declarations that have a name. -/
def group (decls : List DeclId) (name : String) : List DeclId :=
  (decls.filter (·.name ≠ "")).filter (·.name == name)

theorem mem_group_iff {name : String} :
    id ∈ group decls name ↔ id ∈ decls ∧ id.name ≠ "" ∧ id.name = name := by
  simp only [group, List.mem_filter, decide_eq_true_eq, beq_iff_eq, and_assoc]

/-- A declaration is alone in its group unless it shares its name. -/
theorem group_eq_singleton_iff (hnodup : decls.Nodup) (hid : id ∈ decls) (hname : id.name ≠ "") :
    group decls id.name = [id] ↔ ¬ Shares decls id := by
  have hmem : id ∈ group decls id.name := mem_group_iff.mpr ⟨hid, hname, rfl⟩
  have hgroup : (group decls id.name).Nodup := (hnodup.filter _).filter _
  constructor
  · intro hsingle hshares
    obtain ⟨_, other, hother, hne, hsame⟩ := hshares
    have hin : other ∈ group decls id.name := mem_group_iff.mpr ⟨hother, hsame ▸ hname, hsame⟩
    rw [hsingle, List.mem_singleton] at hin
    exact hne hin
  · intro halone
    refine List.perm_singleton.mp ((List.perm_ext_iff_of_nodup hgroup (List.nodup_singleton _)).mpr
      fun other => ?_)
    rw [List.mem_singleton]
    constructor
    · intro hin
      obtain ⟨hother, _, hsame⟩ := mem_group_iff.mp hin
      by_contra hne
      exact halone ⟨hname, other, hother, hne, hsame⟩
    · rintro rfl
      exact hmem

theorem groupNames_of_ne {name : String} {ids : List DeclId} (h : ∀ id, ids ≠ [id]) :
    groupNames (name, ids) = ids.map fun id => (id, qualified id) := by
  unfold groupNames
  split
  · rename_i id hids
    exact absurd hids (h id)
  · rfl

/-- In each group one alone keeps its own name, and several get paths in front. -/
theorem groupNames_group (decls : List DeclId) (name : String) :
    groupNames (name, group decls name) =
      (group decls name).map fun id =>
        (id, if group decls id.name = [id] then Python.identifier id.name else qualified id) := by
  by_cases hsingle : ∃ id, group decls name = [id]
  · obtain ⟨id, hsingle⟩ := hsingle
    have hin : id ∈ group decls name := hsingle ▸ List.mem_singleton_self id
    obtain ⟨_, _, rfl⟩ := mem_group_iff.mp hin
    rw [hsingle, List.map_singleton, if_pos hsingle]
    rfl
  · rw [groupNames_of_ne (not_exists.mp hsingle)]
    refine List.map_congr_left fun id hin => ?_
    obtain ⟨_, _, rfl⟩ := mem_group_iff.mp hin
    rw [if_neg (not_exists.mp hsingle id)]

/-- The declarations that have a name, group by group. -/
def named (decls : List DeclId) : List DeclId :=
  (Keyed.keysOf (·.name) (decls.filter (·.name ≠ ""))).flatMap (group decls)

theorem mem_named_iff : id ∈ named decls ↔ id ∈ decls ∧ id.name ≠ "" := by
  unfold named
  simp only [List.mem_flatMap, mem_group_iff, Keyed.mem_keysOf_iff]
  constructor
  · rintro ⟨_, _, hid, hname, _⟩
    exact ⟨hid, hname⟩
  · intro h
    have hkey : id ∈ decls.filter (·.name ≠ "") := by simpa using h
    exact ⟨id.name, List.mem_map_of_mem hkey, h.1, h.2, rfl⟩

theorem entries_ofDecls (decls : List DeclId) :
    (ofDecls decls).entries = (named decls).map fun id =>
      (id, if group decls id.name = [id] then Python.identifier id.name else qualified id) := by
  unfold ofDecls named
  rw [Keyed.groupBy_eq, List.flatMap_map, List.map_flatMap]
  exact List.flatMap_congr fun name _ => groupNames_group decls name

theorem nameOf_of_mem_named (hid : id ∈ named decls) : (ofDecls decls).nameOf id =
    if group decls id.name = [id] then Python.identifier id.name else qualified id := by
  unfold nameOf
  rw [entries_ofDecls, List.lookup_graph _ hid, Option.getD_some]

/-- A declaration that has no name, or is none of these, keeps its own. -/
theorem nameOf_of_not_mem_named (hid : id ∉ named decls) :
    (ofDecls decls).nameOf id = Python.identifier id.name := by
  unfold nameOf
  rw [entries_ofDecls, Keyed.lookup_graph_of_not_mem _ hid, Option.getD_none]

/-- A declaration is named by its own name, and by the path to it where another has the name
too. -/
theorem nameOf_eq (hnodup : decls.Nodup) (hid : id ∈ decls) :
    (ofDecls decls).nameOf id =
      Python.identifier (String.intercalate "_" (steps decls id)) := by
  by_cases hname : id.name = ""
  · have hnone : id ∉ named decls := fun hin => (mem_named_iff.mp hin).2 hname
    have halone : ¬ Shares decls id := fun hshares => hshares.1 hname
    rw [nameOf_of_not_mem_named hnone, steps, if_neg halone, String.intercalate_singleton]
  · rw [nameOf_of_mem_named (mem_named_iff.mpr ⟨hid, hname⟩), steps]
    simp only [group_eq_singleton_iff hnodup hid hname]
    by_cases hshares : Shares decls id
    · rw [if_neg (not_not.mpr hshares), if_pos hshares, qualified]
    · rw [if_pos hshares, if_neg hshares, String.intercalate_singleton]

/-- Names do not depend on the order of the declarations. -/
theorem nameOf_congr {decls' : List DeclId} (hperm : decls.Perm decls') (hnodup : decls.Nodup)
    (id : DeclId) : (ofDecls decls).nameOf id = (ofDecls decls').nameOf id := by
  have hnodup' : decls'.Nodup := hperm.nodup_iff.mp hnodup
  have hshares : Shares decls id ↔ Shares decls' id := by
    unfold Shares
    simp only [hperm.mem_iff]
  have hsteps : steps decls id = steps decls' id := by
    unfold steps
    simp only [hshares]
  by_cases hid : id ∈ decls
  · rw [nameOf_eq hnodup hid, nameOf_eq hnodup' (hperm.mem_iff.mp hid), hsteps]
  · have hnone : id ∉ named decls := fun hin => hid (mem_named_iff.mp hin).1
    have hnone' : id ∉ named decls' := fun hin => hid (hperm.mem_iff.mpr (mem_named_iff.mp hin).1)
    rw [nameOf_of_not_mem_named hnone, nameOf_of_not_mem_named hnone']

/-! ## Different names -/

/-- Declarations whose names and paths are plain, no two of their namespaces with one path. -/
structure Separable (decls : List DeclId) : Prop where
  plain : ∀ id ∈ decls, ∀ part ∈ id.home.path ++ [id.name], Python.IsPlain part
  paths : ∀ id ∈ decls, ∀ id' ∈ decls, id.home.path = id'.home.path → id.home = id'.home

/-- Such declarations have different names. -/
theorem nameOf_inj (hnodup : decls.Nodup) (hseparable : Separable decls) {id' : DeclId}
    (hid : id ∈ decls) (hid' : id' ∈ decls)
    (h : (ofDecls decls).nameOf id = (ofDecls decls).nameOf id') : id = id' := by
  have hplain := hseparable.plain
  have hsteps : ∀ id ∈ decls, steps decls id ≠ [] ∧
      ∀ part ∈ steps decls id, Python.IsPlain part := by
    intro id hid
    unfold steps
    split
    · exact ⟨by simp, hplain id hid⟩
    · refine ⟨by simp, fun part hpart => hplain id hid part ?_⟩
      exact List.mem_append_right _ hpart
  have hlast : ∀ id, (steps decls id).getLast? = some id.name := by
    intro id
    unfold steps
    split <;> simp
  rw [nameOf_eq hnodup hid, nameOf_eq hnodup hid'] at h
  have hsame : steps decls id = steps decls id' :=
    Python.identifier_intercalate_inj (hsteps id hid).2 (hsteps id hid).1 (hsteps id' hid').2
      (hsteps id' hid').1 h
  have hname : id.name = id'.name := by
    have hboth := hlast id
    rw [hsame, hlast id', Option.some.injEq] at hboth
    exact hboth.symm
  by_contra hne
  -- two that have one name both share it, so both are named by their paths
  have hnonempty : id.name ≠ "" := (hplain id hid id.name (by simp)).1
  have hshares : Shares decls id := ⟨hnonempty, id', hid', Ne.symm hne, hname.symm⟩
  have hshares' : Shares decls id' := ⟨hname ▸ hnonempty, id, hid, hne, hname⟩
  unfold steps at hsame
  rw [if_pos hshares, if_pos hshares', hname] at hsame
  have hhome := hseparable.paths id hid id' hid' (List.append_cancel_right hsame)
  obtain ⟨home, name⟩ := id
  obtain ⟨home', name'⟩ := id'
  exact hne (DeclId.mk.injEq _ _ _ _ ▸ ⟨hhome, hname⟩)

end NameTable

/-! ## The names of a set of modules -/

section

variable {g : Graph} {o : Options} {names : NameTable}

/-- The statements of a module have the names of what it renders. -/
theorem Renders.exists_statementNames {m : Python.Module} {decls : DeclId → Prop}
    (h : Renders g names m decls) : ∃ order : List DeclId, order.Nodup ∧
      (∀ id, id ∈ order ↔ decls id) ∧
      m.statements.map statementName = order.map names.nameOf := by
  obtain ⟨order, hnodup, hmem, hstatements⟩ := h
  have hname : ∀ id ∈ order,
      (statement? g names id).map statementName = some (names.nameOf id) := by
    intro id hid
    have hin : statement? g names id ∈ m.statements.map some :=
      hstatements ▸ List.mem_map_of_mem hid
    obtain ⟨s, _, hs⟩ := List.mem_map.mp hin
    rw [← hs, Option.map_some, statementName_eq hs.symm]
  refine ⟨order, hnodup, hmem, List.map_injective_iff.mpr (fun _ _ => Option.some.inj) ?_⟩
  calc (m.statements.map statementName).map some
      = (m.statements.map some).map (Option.map statementName) := by simp
    _ = order.map fun id => (statement? g names id).map statementName := by
      rw [hstatements, List.map_map]
      rfl
    _ = order.map fun id => some (names.nameOf id) := List.map_congr_left hname
    _ = (order.map names.nameOf).map some := by simp

/-- The names that the modules of a program declare. -/
def moduleSetNames (g : Graph) (o : Options) : List String :=
  [Usage.input, .output, .roundtrip].flatMap fun u =>
    (moduleOfUsage g o u).statements.map statementName

/-- Where different declarations have different names, so have the statements of all modules. -/
theorem moduleSetNames_nodup (hg : g.Coherent)
    (hinj : ∀ id ∈ (declared g).all, ∀ id' ∈ (declared g).all,
      (nameTable g).nameOf id = (nameTable g).nameOf id' → id = id') :
    (moduleSetNames g o).Nodup := by
  have hcollected : ∀ {u id}, Goes g o u id → id ∈ (declared g).all := fun hgo =>
    (mem_declared_all_iff hg).mpr hgo.declarable
  unfold moduleSetNames
  rw [List.nodup_flatMap]
  refine ⟨fun u _ => ?_, ?_⟩
  · obtain ⟨order, hnodup, hmem, hnames⟩ := (renders_moduleOfUsage hg o u).exists_statementNames
    rw [hnames]
    refine hnodup.map_on fun id hid id' hid' => hinj id ?_ id' ?_
    · exact hcollected ((hmem id).mp hid)
    · exact hcollected ((hmem id').mp hid')
  · have husages : [Usage.input, .output, .roundtrip].Pairwise (· ≠ ·) := by decide
    refine husages.imp fun {u v} hne name hname hname' => hne ?_
    -- a name in two modules is that of one declaration, which has one usage
    obtain ⟨order, _, hmem, hnames⟩ := (renders_moduleOfUsage hg o u).exists_statementNames
    obtain ⟨order', _, hmem', hnames'⟩ := (renders_moduleOfUsage hg o v).exists_statementNames
    change name ∈ (moduleOfUsage g o u).statements.map statementName at hname
    change name ∈ (moduleOfUsage g o v).statements.map statementName at hname'
    rw [hnames] at hname
    rw [hnames'] at hname'
    obtain ⟨id, hid, rfl⟩ := List.mem_map.mp hname
    obtain ⟨id', hid', heq⟩ := List.mem_map.mp hname'
    have hgoes := (hmem id).mp hid
    have hgoes' := (hmem' id').mp hid'
    obtain rfl := hinj id' (hcollected hgoes') id (hcollected hgoes) heq
    exact hgoes.usage.symm.trans hgoes'.usage

end

/-- **Collected declarations are named by rule, and plain names are different names.** Each keeps
its own name unless another has it too, and then the path of its namespace stands in front. Where
names and paths are made of letters and digits and no two namespaces have one path, no two
declarations get one name, and the modules declare no name twice. -/
theorem names_distinct_of_separable {doc : Document} {g : Graph}
    (h : Graph.ofDocument doc = .ok g) :
    (∀ id ∈ (declared g).all, (nameTable g).nameOf id =
      Python.identifier (String.intercalate "_" (NameTable.steps (declared g).all id))) ∧
    (NameTable.Separable (declared g).all →
      (∀ id ∈ (declared g).all, ∀ id' ∈ (declared g).all,
        (nameTable g).nameOf id = (nameTable g).nameOf id' → id = id') ∧
      ∀ o, (moduleSetNames g o).Nodup) := by
  have hcoherent := Graph.coherent_of_ofDocument h
  have hnodup := declared_all_nodup hcoherent
  refine ⟨fun id hid => NameTable.nameOf_eq hnodup hid, fun hseparable => ?_⟩
  have hinj : ∀ id ∈ (declared g).all, ∀ id' ∈ (declared g).all,
      (nameTable g).nameOf id = (nameTable g).nameOf id' → id = id' := fun id hid id' hid' =>
    NameTable.nameOf_inj hnodup hseparable hid hid'
  exact ⟨hinj, fun o => moduleSetNames_nodup hcoherent hinj⟩

/-- Two addresses: the name is shared, the paths tell them apart. -/
def addresses : Document :=
  { root :=
      { name := ""
        namespaces := [
          { name := "Billing", models := [⟨"Address", none, none, none, [], {}⟩] },
          { name := "Shipping", models := [⟨"Address", none, none, none, [], {}⟩] }] }
    diagnostics := [] }

theorem names_distinct_addresses :
    ∃ g, Graph.ofDocument addresses = .ok g ∧
      (∀ id ∈ (declared g).all, (nameTable g).nameOf id =
        Python.identifier (String.intercalate "_" (NameTable.steps (declared g).all id))) ∧
      NameTable.Separable (declared g).all ∧
      (∀ id ∈ (declared g).all, ∀ id' ∈ (declared g).all,
        (nameTable g).nameOf id = (nameTable g).nameOf id' → id = id') ∧
      ∀ o, (moduleSetNames g o).Nodup := by
  obtain ⟨g, hg, hall⟩ : ∃ g, Graph.ofDocument addresses = .ok g ∧ (declared g).all =
      [⟨⟨[⟨1, "Billing"⟩]⟩, "Address"⟩, ⟨⟨[⟨2, "Shipping"⟩]⟩, "Address"⟩] := ⟨_, rfl, by decide⟩
  have hseparable : NameTable.Separable (declared g).all := by
    rw [hall]
    exact ⟨by decide, by decide⟩
  have hnames := names_distinct_of_separable hg
  exact ⟨g, hg, hnames.1, hseparable, hnames.2 hseparable⟩

/-- One name in two namespaces, whose paths are joined to one text: `B` in `A`, and `A_B`. -/
def lanes : Document :=
  { root :=
      { name := ""
        namespaces := [
          { name := "A"
            namespaces := [{ name := "B", models := [⟨"X", none, none, none, [], {}⟩] }] },
          { name := "A_B", models := [⟨"X", none, none, none, [], {}⟩] }] }
    diagnostics := [] }

/-- An underscore in the name of a namespace is not told apart from a step of a path, so two
declarations can get one name, and a module two classes of one name. -/
theorem names_clash_lanes :
    ∃ g, Graph.ofDocument lanes = .ok g ∧ (∃ id ∈ (declared g).all, ∃ id' ∈ (declared g).all,
      id ≠ id' ∧ (nameTable g).nameOf id = (nameTable g).nameOf id') ∧
      (moduleOfUsage g {} .roundtrip).statements.map statementName = ["A_B_X", "A_B_X"] := by
  have hg : Graph.ofDocument lanes = .ok _ := rfl
  refine ⟨_, hg, ⟨⟨⟨[⟨1, "B"⟩, ⟨1, "A"⟩]⟩, "X"⟩, ?_, ⟨⟨[⟨2, "A_B"⟩]⟩, "X"⟩, ?_, ?_, ?_⟩, ?_⟩
  all_goals decide

end Pydantic

end ApiEmit
