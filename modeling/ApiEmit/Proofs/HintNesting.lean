/-
ApiEmit.Proofs.HintNesting — how type hints are put together, and what they refer to.

A type hint is spelled out for the items of a list, the values of a map and the alternatives of a
choice (`Graph.spelledOut`), and nowhere else: a declared model or enum is referred to by name.
One equation says so for every type (`annotate?_succ`). From it, a type hint is found within some
depth exactly when types are spelled out no deeper than that, and the names gathered on the way
are those that the type hint refers to.
-/
import ApiEmit.Proofs.HintNames
import ApiEmit.Proofs.ProgramTypes
import ApiEmit.Pydantic.TypeHint

namespace ApiEmit

namespace Graph

variable {g : Graph} {t t' : Ty}

/-- The types that the type hint of a type is put together from. -/
def spelledOut (g : Graph) : Ty → List Ty
  | .array element => [element]
  | .record value => [value]
  | .union variants => variants
  | .ref id =>
    match g.union? id with
    | some u => u.variants.map (·.type)
    | none => (g.mapValue? (.ref id)).toList
  | _ => []

/-- One type is spelled out for another. -/
def SpellsOut (g : Graph) (t t' : Ty) : Prop := t' ∈ g.spelledOut t

theorem SpellsOut.opens (h : g.SpellsOut t t') : g.Opens t t' := by
  cases t with
  | array | record | union => exact .part h
  | intrinsic | string | number | boolean | model => cases h
  | ref id =>
    rw [SpellsOut, spelledOut] at h
    split at h
    · rename_i u hu
      exact .declared (union?_eq_some_iff.mp hu) h
    · rw [Option.mem_toList, mapValue?] at h
      split at h
      · obtain ⟨m, hm, hindexer⟩ := Option.bind_eq_some_iff.mp h
        refine .declared (model?_eq_some_iff.mp hm) ?_
        exact List.mem_append_right _ (Option.mem_toList.mpr hindexer)
      · cases h

end Graph

namespace Python.TypeHint

variable {a : TypeHint}

/-- The names that a type hint refers to, in the order of a walk. -/
def forwards (a : TypeHint) : List String := a.walk.filterMap forwardName?

theorem forwards_eq (a : TypeHint) :
    a.forwards = a.forwardName?.toList ++ a.parts.flatMap forwards := by
  unfold forwards
  rw [walk_eq, List.filterMap_cons, List.filterMap_flatMap]
  cases a.forwardName? <;> rfl

/-- A type hint around another refers to the same names. -/
theorem forwards_eq_of_parts {inner : TypeHint} (hname : a.forwardName? = Option.none)
    (hparts : a.parts = [inner]) : a.forwards = inner.forwards := by
  rw [forwards_eq, hname, hparts]
  simp

end Python.TypeHint

namespace Pydantic

open Python (TypeHint)

variable {g : Graph} {names : NameTable} {t : Ty} {n m : Nat} {refs refs' : References}
  {a : TypeHint}

/-! ## One step -/

/-- The type hint of a type, from those of the types that are spelled out for it. -/
def assemble (g : Graph) (names : NameTable) (type : Ty) (parts : List TypeHint)
    (refs : References) : TypeHint × References :=
  match type with
  | .array _ => (.list (choice parts), refs)
  | .record _ => (.dict (choice parts), refs)
  | .union _ => (choice parts, refs)
  | .model _ => (.any, refs)
  | .intrinsic .null => (.none, refs)
  | .intrinsic _ => (.any, refs)
  | .string _ => (.primitive .str, refs)
  | .number n => (.primitive (if n.isIntegral then .int else .float), refs)
  | .boolean _ => (.primitive .bool, refs)
  | .ref id =>
    match g.declaration? id with
    | none => (.any, refs)
    | some (.scalar _) => (scalarHint g id, refs)
    | some (.enum _) => if id.name = "" then (.any, refs) else forwardReference names id refs
    | some (.union _) => (choice parts, refs)
    | some (.model _) =>
      if (g.mapValue? (.ref id)).isSome then (.dict (choice parts), refs)
      else if g.isStructural id then (.any, refs) else forwardReference names id refs

theorem annotateAll_singleton (annotate : Ty → References → Option (TypeHint × References)) :
    annotateAll annotate [t] refs = (annotate t refs).map fun (a, refs) => ([a], refs) := by
  simp only [annotateAll]
  cases annotate t refs <;> rfl

theorem annotateAll_cons_eq_some_iff
    {annotate : Ty → References → Option (TypeHint × References)} {first : Ty} {rest : List Ty}
    {result : List TypeHint × References} :
    annotateAll annotate (first :: rest) refs = some result ↔
      ∃ a between, annotate first refs = some (a, between) ∧
        ∃ as after, annotateAll annotate rest between = some (as, after) ∧
          (a :: as, after) = result := by
  rw [annotateAll]
  cases annotate first refs with
  | none => simp
  | some found =>
    obtain ⟨a, between⟩ := found
    cases hrest : annotateAll annotate rest between with
    | none => simp [hrest]
    | some results =>
      obtain ⟨as, after⟩ := results
      simp [hrest]

/-- A type hint is put together from those of the types that are spelled out for it, one after the
other. -/
theorem annotate?_succ : annotate? g names (n + 1) t refs =
    (annotateAll (annotate? g names n) (g.spelledOut t) refs).map fun (as, refs) =>
      assemble g names t as refs := by
  cases t with
  | array e | record e =>
    rw [annotate?, Graph.spelledOut, annotateAll_singleton, Option.map_map]
    rfl
  | union => rfl
  | string | number | boolean | model => rfl
  | intrinsic i => cases i <;> rfl
  | ref id =>
    rw [annotate?, Graph.spelledOut]
    cases hd : g.declaration? id with
    | none => simp [assemble, hd, Graph.union?, Graph.mapValue?, Graph.model?, annotateAll]
    | some d =>
      cases d with
      | scalar | enum =>
        simp [assemble, hd, Graph.union?, Graph.mapValue?, Graph.model?, annotateAll]
      | union u => simp [assemble, hd, Graph.union?]
      | model m =>
        cases hmap : g.mapValue? (.ref id) with
        | none => simp [assemble, hd, hmap, Graph.union?, annotateAll]
        | some value =>
          simp only [assemble, hd, hmap, Graph.union?, Option.toList, annotateAll_singleton,
            Option.map_map]
          rfl

/-! ## How deep types are spelled out -/

/-- All of some types are annotated if each of them is, whatever names stand before it. -/
theorem isSome_annotateAll_iff {annotate : Ty → References → Option (TypeHint × References)}
    {P : Ty → Prop} (h : ∀ t refs, (annotate t refs).isSome ↔ P t) {types : List Ty} :
    (annotateAll annotate types refs).isSome ↔ ∀ t ∈ types, P t := by
  induction types generalizing refs with
  | nil => simp [annotateAll]
  | cons first rest ih =>
    rw [annotateAll, List.forall_mem_cons, ← h first refs]
    cases hfirst : annotate first refs with
    | none => simp
    | some result =>
      obtain ⟨a, between⟩ := result
      have hrest := @ih between
      cases hall : annotateAll annotate rest between with
      | none => simpa [hall] using hrest
      | some results => simpa [hall] using hrest

/-- **A type hint is found within some depth exactly when no type is spelled out deeper.** -/
theorem isSome_annotate?_iff :
    (annotate? g names n t refs).isSome ↔ NestedWithin g.SpellsOut n t := by
  induction n generalizing t refs with
  | zero => simp [annotate?, not_nestedWithin_zero]
  | succ n ih =>
    rw [annotate?_succ, Option.isSome_map, isSome_annotateAll_iff fun t refs => @ih t refs,
      nestedWithin_succ_iff]
    rfl

theorem annotateAll_eq_of_le {annotate annotate' : Ty → References → Option (TypeHint × References)}
    (h : ∀ t refs result, annotate t refs = some result → annotate' t refs = some result)
    {types : List Ty} {result : List TypeHint × References}
    (hall : annotateAll annotate types refs = some result) :
    annotateAll annotate' types refs = some result := by
  induction types generalizing refs result with
  | nil => exact hall
  | cons first rest ih =>
    obtain ⟨a, between, hfirst, as, after, hrest, rfl⟩ := annotateAll_cons_eq_some_iff.mp hall
    exact annotateAll_cons_eq_some_iff.mpr
      ⟨a, between, h _ _ _ hfirst, as, after, ih hrest, rfl⟩

/-- A type hint that is found within some depth is found within any greater one. -/
theorem annotate?_mono {result : TypeHint × References}
    (h : annotate? g names n t refs = some result) (hle : n ≤ m) :
    annotate? g names m t refs = some result := by
  induction n generalizing t refs result m with
  | zero => cases h
  | succ n ih =>
    obtain ⟨m, rfl⟩ : ∃ m', m = m' + 1 := ⟨m - 1, by omega⟩
    rw [annotate?_succ] at h ⊢
    obtain ⟨parts, hparts, rfl⟩ := Option.map_eq_some_iff.mp h
    rw [annotateAll_eq_of_le (fun t refs result h => ih h (by omega)) hparts]
    rfl

/-- Where no cycle is met, as many steps are enough as a type hint is given. -/
theorem exists_annotate? (hcycle : MeetsNoCycle g.SpellsOut t) (names : NameTable)
    (refs : References) :
    ∃ result, annotate? g names (t.size + g.size + 1) t refs = some result := by
  rw [← Option.isSome_iff_exists, isSome_annotate?_iff]
  exact (Graph.nestedWithin_size (fun _ _ => Graph.SpellsOut.opens) hcycle).mono (Nat.le_succ _)

/-- A type hint that is found at all is the one that is given. -/
theorem annotate_eq {result : TypeHint × References}
    (h : annotate? g names n t refs = some result) : annotate g names t refs = result := by
  have hsome : (annotate? g names n t refs).isSome := h ▸ rfl
  have hcycle : MeetsNoCycle g.SpellsOut t := (isSome_annotate?_iff.mp hsome).meetsNoCycle
  obtain ⟨found, hfound⟩ := exists_annotate? hcycle names refs
  rw [annotate, hfound, Option.getD_some]
  exact eq_of_found annotate?_mono hfound h

/-- **Type hints of a loaded program are found without a cycle among what is spelled out**, with
calls nested no deeper than there are types. Properties, bases and the values of other models may
lead anywhere. -/
theorem annotate_nesting {doc : Document} (h : Graph.ofDocument doc = .ok g) (names : NameTable)
    (hcycle : MeetsNoCycle g.SpellsOut t) :
    (∀ refs, ∃ n, annotate? g names n t refs = some (annotate g names t refs)) ∧
    (t ∈ g.types → NestedWithin g.SpellsOut g.types.length t ∧
      ∀ refs, annotate? g names g.types.length t refs = some (annotate g names t refs)) := by
  refine ⟨fun refs => ?_, fun ht => ?_⟩
  · obtain ⟨result, hresult⟩ := exists_annotate? hcycle names refs
    exact ⟨_, by rw [hresult, annotate_eq hresult]⟩
  · have hnested : NestedWithin g.SpellsOut g.types.length t :=
      Graph.nestedWithin_length_types (fun _ _ => Graph.SpellsOut.opens) h ht hcycle
    refine ⟨hnested, fun refs => ?_⟩
    have hsome : (annotate? g names g.types.length t refs).isSome :=
      isSome_annotate?_iff.mpr hnested
    obtain ⟨result, hresult⟩ := Option.isSome_iff_exists.mp hsome
    rw [hresult, annotate_eq hresult]

/-- A folder stands in folders, is an entry, and has folders as further values; an entry is a
folder. Items are a map of lists of folders, folders and texts. -/
def folders : Document :=
  { root :=
      { name := ""
        models := [
          ⟨"Folder", none, some "Entry", some (.ref "Folder"),
            [⟨"parent", .ref "Folder", true, none, none, {}⟩,
              ⟨"items", .array (.ref "Item"), false, none, none, {}⟩], {}⟩,
          ⟨"Entry", none, some "Folder", none,
            [⟨"within", .ref "Folder", true, none, none, {}⟩], {}⟩,
          ⟨"Record", none, none, some (.array (.ref "Folder")), [], {}⟩]
        unions := [⟨"Item", none,
          [⟨none, .ref "Record"⟩, ⟨none, .ref "Folder"⟩, ⟨none, .ref "string"⟩]⟩] }
    diagnostics := [] }

theorem annotate_nesting_folders : ∃ g, Graph.ofDocument folders = .ok g ∧
    MeetsNoCycle g.SpellsOut (atRoot "Item") ∧ atRoot "Item" ∈ g.types ∧
    (∀ refs, ∃ n, annotate? g (.ofDecls []) n (atRoot "Item") refs =
      some (annotate g (.ofDecls []) (atRoot "Item") refs)) ∧
    NestedWithin g.SpellsOut g.types.length (atRoot "Item") ∧
    ∀ refs, annotate? g (.ofDecls []) g.types.length (atRoot "Item") refs =
      some (annotate g (.ofDecls []) (atRoot "Item") refs) := by
  obtain ⟨g, hg, hsome, hdeclared⟩ : ∃ g, Graph.ofDocument folders = .ok g ∧
      (annotate? g (.ofDecls []) 4 (atRoot "Item") []).isSome = true ∧
      (g.declaration? ⟨.root, "Item"⟩).isSome = true := ⟨_, rfl, by decide⟩
  have hcycle : MeetsNoCycle g.SpellsOut (atRoot "Item") :=
    (isSome_annotate?_iff.mp hsome).meetsNoCycle
  have hmem : atRoot "Item" ∈ g.types := Graph.mem_types_of_isSome hdeclared
  have hnesting := annotate_nesting hg (.ofDecls []) hcycle
  exact ⟨g, hg, hcycle, hmem, hnesting.1, hnesting.2 hmem⟩

/-! ## What type hints refer to -/

/-- A choice refers to what its alternatives refer to. -/
theorem forwards_choice (parts : List TypeHint) :
    (choice parts).forwards = parts.flatMap TypeHint.forwards := by
  unfold choice
  split
  · rfl
  · simp
  · rw [TypeHint.forwards_eq]
    rfl

theorem forwards_scalarHint (id : DeclId) : (scalarHint g id).forwards = [] := by
  unfold scalarHint
  cases (g.scalarChain id).findSome? fun id => scalarPrimitive? id.name <;> rfl

/-- What a type hint refers to beside its parts is added behind what they refer to. -/
theorem exists_own_of_assemble (g : Graph) (names : NameTable) {parts : List TypeHint}
    (hparts : g.spelledOut t = [] → parts = []) (refs : References) :
    ∃ own, (assemble g names t parts refs).1.forwards = parts.flatMap TypeHint.forwards ++ own ∧
      (assemble g names t parts refs).2 = own.foldl References.insert refs := by
  have hchoice : (choice parts).forwards = parts.flatMap TypeHint.forwards ++ [] := by
    rw [forwards_choice, List.append_nil]
  -- what is not taken apart is referred to by its own name, or by none
  have hleaf : ∀ (a : TypeHint) (own : List String), a.forwards = own → g.spelledOut t = [] →
      a.forwards = parts.flatMap TypeHint.forwards ++ own := by
    intro a own ha hnil
    rw [ha, hparts hnil]
    rfl
  cases t with
  | array | record =>
    refine ⟨[], ?_, rfl⟩
    rw [assemble, TypeHint.forwards_eq_of_parts rfl rfl, hchoice]
  | union => exact ⟨[], hchoice, rfl⟩
  | model | string | number | boolean => exact ⟨[], hleaf _ [] rfl rfl, rfl⟩
  | intrinsic i => cases i <;> exact ⟨[], hleaf _ [] rfl rfl, rfl⟩
  | ref id =>
    rw [assemble]
    cases hd : g.declaration? id with
    | none =>
      refine ⟨[], hleaf _ [] rfl ?_, rfl⟩
      simp [Graph.spelledOut, Graph.union?, Graph.mapValue?, Graph.model?, hd]
    | some d =>
      cases d with
      | scalar =>
        refine ⟨[], hleaf _ [] (forwards_scalarHint id) ?_, rfl⟩
        simp [Graph.spelledOut, Graph.union?, Graph.mapValue?, Graph.model?, hd]
      | enum =>
        have hnil : g.spelledOut (.ref id) = [] := by
          simp [Graph.spelledOut, Graph.union?, Graph.mapValue?, Graph.model?, hd]
        dsimp only
        split
        · exact ⟨[], hleaf _ [] rfl hnil, rfl⟩
        · exact ⟨[names.nameOf id], hleaf _ _ rfl hnil, rfl⟩
      | union => exact ⟨[], hchoice, rfl⟩
      | model =>
        dsimp only
        split
        · exact ⟨[], by rw [TypeHint.forwards_eq_of_parts rfl rfl, hchoice], rfl⟩
        · rename_i hmap
          have hnil : g.spelledOut (.ref id) = [] := by
            simpa [Graph.spelledOut, Graph.union?, hd] using hmap
          split
          · exact ⟨[], hleaf _ [] rfl hnil, rfl⟩
          · exact ⟨[names.nameOf id], hleaf _ _ rfl hnil, rfl⟩

theorem gathered_of_annotateAll {annotate : Ty → References → Option (TypeHint × References)}
    (h : ∀ t refs a refs', annotate t refs = some (a, refs') →
      refs' = a.forwards.foldl References.insert refs)
    {types : List Ty} {parts : List TypeHint}
    (hall : annotateAll annotate types refs = some (parts, refs')) :
    refs' = (parts.flatMap TypeHint.forwards).foldl References.insert refs := by
  induction types generalizing refs parts with
  | nil =>
    cases hall
    rfl
  | cons first rest ih =>
    obtain ⟨a, between, hfirst, as, after, hrest, heq⟩ := annotateAll_cons_eq_some_iff.mp hall
    cases heq
    rw [List.flatMap_cons, List.foldl_append, ← h _ _ _ _ hfirst]
    exact ih hrest

/-- The names gathered for a type hint are those that it refers to, in the order of a walk. -/
theorem gathered_eq (h : annotate? g names n t refs = some (a, refs')) :
    refs' = a.forwards.foldl References.insert refs := by
  induction n generalizing t refs a refs' with
  | zero => cases h
  | succ n ih =>
    rw [annotate?_succ] at h
    obtain ⟨⟨parts, between⟩, hall, heq⟩ := Option.map_eq_some_iff.mp h
    change assemble g names t parts between = (a, refs') at heq
    have hparts : g.spelledOut t = [] → parts = [] := by
      intro hleaf
      rw [hleaf] at hall
      cases hall
      rfl
    have hbetween := gathered_of_annotateAll (fun _ _ _ _ => ih) hall
    obtain ⟨own, hforwards, hrefs⟩ := exists_own_of_assemble g names hparts between
    rw [heq] at hforwards hrefs
    rw [hforwards, List.foldl_append, ← hbetween]
    exact hrefs

/-- **The names gathered for a type hint are those that it refers to.** The names before stay in
their order, and behind them stand the names that a walk of the type hint meets and that were not
there, in the order of their first visit, each once. -/
theorem annotate_gathers (h : annotate? g names n t refs = some (a, refs')) :
    annotate g names t refs = (a, refs') ∧
    refs' = refs ++ (Keyed.firstOccurrences id a.forwards).filter (· ∉ refs) := by
  refine ⟨annotate_eq h, ?_⟩
  rw [gathered_eq h]
  have hadd := Keyed.foldl_add_eq id a.forwards refs
  rwa [List.map_id] at hadd

/-- The type hint of an item. -/
def itemHint : TypeHint :=
  .union [.dict (.list (.forward "Folder")), .forward "Folder", .primitive .str]

theorem annotate_gathers_folders : ∃ g, Graph.ofDocument folders = .ok g ∧
    annotate? g (.ofDecls []) 4 (atRoot "Item") ["Entry"] =
      some (itemHint, ["Entry", "Folder"]) ∧
    annotate g (.ofDecls []) (atRoot "Item") ["Entry"] = (itemHint, ["Entry", "Folder"]) ∧
    ["Entry", "Folder"] =
      ["Entry"] ++ (Keyed.firstOccurrences id itemHint.forwards).filter (· ∉ ["Entry"]) := by
  obtain ⟨g, hg, hfound⟩ : ∃ g, Graph.ofDocument folders = .ok g ∧
      annotate? g (.ofDecls []) 4 (atRoot "Item") ["Entry"] =
        some (itemHint, ["Entry", "Folder"]) := ⟨_, rfl, rfl⟩
  exact ⟨g, hg, hfound, annotate_gathers hfound⟩

end Pydantic

end ApiEmit
