/-
ApiEmit.Proofs.Unused — leaving out what no operation reaches.

Options may ask that only types in use are written. What is not in use makes a round trip, so it is
only the module for round trips that loses something (`bucket_onlyUsed`, `bucket_onlyUsed_of_ne`).
Names are given before anything is left out, so what stays is written as before.
-/
import ApiEmit.Proofs.Emission

namespace ApiEmit.Pydantic

variable {g : Graph} {o : Options} {u : Usage} {id : DeclId}

/-! ## Buckets -/

/-- The options, but for whether what is not in use is left out. -/
def Options.onlyUsed (o : Options) (flag : Bool) : Options :=
  { o with constrainToUsed := flag }

/-- Only names are validated. -/
theorem validate_onlyUsed (o : Options) (flag : Bool) :
    (o.onlyUsed flag).validate = o.validate := rfl

theorem moduleFor_onlyUsed (o : Options) (flag : Bool) :
    (o.onlyUsed flag).moduleFor = o.moduleFor := by
  funext u
  cases u <;> rfl

/-- Without a usage of its own a type makes a round trip. -/
theorem contains_of_usageOf_ne (h : g.classify.usageOf id ≠ .roundtrip) :
    g.classify.contains id = true := by
  unfold UsageMap.usageOf at h
  unfold UsageMap.contains
  cases hroles : g.classify.roles? id with
  | none =>
    rw [hroles] at h
    exact absurd rfl h
  | some roles => rfl

/-- What is left of a bucket is what is in use. -/
theorem bucket_onlyUsed (g : Graph) (o : Options) (u : Usage) :
    bucket g (o.onlyUsed true) u =
      (bucket g (o.onlyUsed false) u).filter g.classify.contains := by
  have hall : selected g (o.onlyUsed false) = (declared g).all := by
    simp [selected, Options.onlyUsed]
  have hused : selected g (o.onlyUsed true) = (declared g).all.filter g.classify.contains := by
    simp [selected, Options.onlyUsed]
  unfold bucket
  rw [hall, hused, List.filter_comm]

/-- Nothing is left out of what is only taken or only given. -/
theorem bucket_onlyUsed_of_ne (hu : u ≠ .roundtrip) :
    bucket g (o.onlyUsed true) u = bucket g (o.onlyUsed false) u := by
  rw [bucket_onlyUsed, List.filter_eq_self]
  intro id hid
  have husage : g.classify.usageOf id = u := by simpa using (List.mem_filter.mp hid).2
  exact contains_of_usageOf_ne (husage ▸ hu)

/-! ## Files -/

/-- The file of a usage holds the module of its bucket. -/
theorem file_mem_files_iff (ho : o.validate = .ok ()) {text : String} :
    (fileName (o.moduleFor u), text) ∈ files g o ↔
      g.hasErrors = false ∧ bucket g o u ≠ [] ∧ text = (moduleOfUsage g o u).text := by
  rw [files_eq ho, List.mem_map]
  simp only [mem_modules_iff]
  constructor
  · rintro ⟨_, ⟨he, v, hv, rfl⟩, heq⟩
    obtain ⟨hname, htext⟩ := Prod.mk.inj heq
    obtain rfl := moduleFor_injective ho (fileName_injective hname)
    exact ⟨he, hv, htext.symm⟩
  · rintro ⟨he, hu, rfl⟩
    exact ⟨_, ⟨he, u, hu, rfl⟩, rfl⟩

/-- The file of a usage holds some declarations in their order, and is missing if there are none:
the statements of these declarations, and what these statements import. -/
def Holds (g : Graph) (o : Options) (u : Usage) (ids : List DeclId) : Prop :=
  ∀ text, (fileName (o.moduleFor u), text) ∈ files g o ↔ ids ≠ [] ∧
    ∃ m : Python.Module, m.statements.map some = ids.map (statement? g (nameTable g)) ∧
      m.imports = importsOf m.statements ∧ text = m.text

/-- Each file holds its bucket in some order. -/
theorem exists_holds (hg : g.Coherent) (he : g.hasErrors = false) (ho : o.validate = .ok ())
    (u : Usage) : ∃ ids, ids.Nodup ∧ (∀ id, id ∈ ids ↔ id ∈ bucket g o u) ∧ Holds g o u ids := by
  obtain ⟨ids, hnodup, hmem, hstatements⟩ :=
    renders_moduleOf (nameTable g) (bucket_nodup hg o u) fun id hid =>
      ((mem_bucket_iff hg).mp hid).declarable
  have hempty : bucket g o u ≠ [] ↔ ids ≠ [] := by
    simp only [ne_eq, List.eq_nil_iff_forall_not_mem, hmem]
  refine ⟨ids, hnodup, hmem, fun text => ?_⟩
  rw [file_mem_files_iff ho, hempty]
  constructor
  · rintro ⟨_, hids, rfl⟩
    exact ⟨hids, moduleOfUsage g o u, hstatements, rfl, rfl⟩
  · rintro ⟨hids, m, hm, himports, rfl⟩
    -- the declarations fix the statements, and these the imports
    have hsame : m.statements = (moduleOfUsage g o u).statements :=
      List.map_injective_iff.mpr (fun _ _ => Option.some.inj) (hm.trans hstatements.symm)
    have hmodule : m = moduleOfUsage g o u := by
      obtain ⟨imports, statements⟩ := m
      dsimp only at hsame himports
      rw [himports, hsame]
      rfl
    exact ⟨he, hids, congrArg Python.Module.text hmodule⟩

/-- A program with errors has no files. -/
theorem holds_nil (he : g.hasErrors = true) (ho : o.validate = .ok ()) (u : Usage) :
    Holds g o u [] := by
  intro text
  rw [file_mem_files_iff ho, he]
  simp

/-! ## With and without -/

/-- What changes when types that are not in use are left out. -/
structure LosesUnused (g : Graph) (o : Options) : Prop where
  /-- The files of what is only taken and of what is only given stay as they are. -/
  kept : ∀ u, u ≠ .roundtrip → ∀ text,
    (fileName (o.moduleFor u), text) ∈ files g (o.onlyUsed true) ↔
      (fileName (o.moduleFor u), text) ∈ files g (o.onlyUsed false)
  /-- The file for round trips keeps what is in use, each with the statement that it had. -/
  roundtrip : ∃ ids left : List DeclId, ids.Nodup ∧ left.Perm (ids.filter g.classify.contains) ∧
    Holds g (o.onlyUsed false) .roundtrip ids ∧ Holds g (o.onlyUsed true) .roundtrip left
  /-- There are no other files. -/
  usage_of_file : ∀ flag, ∀ file ∈ files g (o.onlyUsed flag),
    ∃ u, file.1 = fileName (o.moduleFor u)

/-- **Leaving out what is not in use touches only the module for round trips**: the other two stay
the same text or stay away, and it keeps those of its declarations that are in use, unchanged. -/
theorem losesUnused_of_ofDocument {doc : Document} (hg : Graph.ofDocument doc = .ok g)
    (ho : o.validate = .ok ()) : LosesUnused g o := by
  have hcoherent := Graph.coherent_of_ofDocument hg
  have hvalid : ∀ flag, (o.onlyUsed flag).validate = .ok () := fun flag =>
    (validate_onlyUsed o flag).trans ho
  have hfile : ∀ {flag u text}, (fileName (o.moduleFor u), text) ∈ files g (o.onlyUsed flag) ↔
      g.hasErrors = false ∧ bucket g (o.onlyUsed flag) u ≠ [] ∧
        text = (moduleOfUsage g (o.onlyUsed flag) u).text := by
    intro flag u text
    rw [← moduleFor_onlyUsed o flag]
    exact file_mem_files_iff (hvalid flag)
  refine ⟨fun u hu text => ?_, ?_, fun flag file hmem => ?_⟩
  · rw [hfile, hfile, moduleOfUsage, moduleOfUsage, bucket_onlyUsed_of_ne hu]
  · cases he : g.hasErrors with
    | true =>
      exact ⟨[], [], List.nodup_nil, .refl _, holds_nil he (hvalid false) _,
        holds_nil he (hvalid true) _⟩
    | false =>
      obtain ⟨ids, hnodup, hmem, hholds⟩ :=
        exists_holds hcoherent he (hvalid false) .roundtrip
      obtain ⟨left, hnodup', hmem', hholds'⟩ :=
        exists_holds hcoherent he (hvalid true) .roundtrip
      refine ⟨ids, left, hnodup, ?_, hholds, hholds'⟩
      refine (List.perm_ext_iff_of_nodup hnodup' (hnodup.filter _)).mpr fun id => ?_
      rw [hmem', bucket_onlyUsed, List.mem_filter, List.mem_filter, hmem]
  · rw [files_eq (hvalid flag)] at hmem
    obtain ⟨entry, hentry, rfl⟩ := List.mem_map.mp hmem
    obtain ⟨_, u, _, rfl⟩ := mem_modules_iff.mp hentry
    exact ⟨u, by rw [moduleFor_onlyUsed]⟩

/-- A program that takes and gives pets, gives visits, and does nothing with notes. -/
def clinic : Document :=
  { root :=
      { name := ""
        models := [⟨"Note", none, none, none, [⟨"about", .ref "Pet", false, none, none, {}⟩], {}⟩,
          ⟨"Pet", none, none, none, [⟨"name", .ref "string", false, none, none, {}⟩], {}⟩,
          ⟨"Visit", none, none, none, [⟨"pet", .ref "Pet", true, none, none, {}⟩], {}⟩]
        operations := [⟨"admit", .post, "/visits", none, none, [], some ⟨.ref "Pet", []⟩,
          [⟨.code 201, none, [⟨.ref "Visit", []⟩]⟩]⟩] }
    diagnostics := [] }

theorem losesUnused_clinic : ∃ g, Graph.ofDocument clinic = .ok g ∧
    Options.validate {} = .ok () ∧ LosesUnused g {} ∧
    bucket g (Options.onlyUsed {} false) .roundtrip = [⟨.root, "Note"⟩, ⟨.root, "Pet"⟩] ∧
    bucket g (Options.onlyUsed {} true) .roundtrip = [⟨.root, "Pet"⟩] := by
  have hg : Graph.ofDocument clinic = .ok _ := rfl
  refine ⟨_, hg, rfl, losesUnused_of_ofDocument hg rfl, ?_, ?_⟩
  all_goals decide

end ApiEmit.Pydantic
