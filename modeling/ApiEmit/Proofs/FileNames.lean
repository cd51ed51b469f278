/-
ApiEmit.Proofs.FileNames — whether a template names a file.

A file name is what is left of the template once the placeholders are filled in and the empty parts
of the path are left out. Nothing is left of slashes, so a template names a file unless all that it
comes to are slashes. What a placeholder stands for counts only if it is more than slashes itself:
the name of a service nearly always is, but the placeholder for several services stands for nothing
where there is one. A template is accepted if it is not blank, and that does not keep it from being
made of slashes and of this placeholder.
-/
import ApiEmit.Graph.Load
import ApiEmit.Host.Disk
import ApiEmit.Host.Path
import ApiEmit.Proofs.Joined
import ApiEmit.Proofs.Substitution
import ApiEmit.Reference.Emission

namespace ApiEmit

/-! ## Paths without a name -/

/-- A path does not end in a name. -/
def LacksName (path : String) : Prop := (Text.split '/' path).getLast? = some ""

/-- A path that leads to a file below any directory: not empty, relative, and without empty
parts. -/
structure NamesFile (path : String) : Prop where
  ne_empty : path ≠ ""
  relative : path.toList.head? ≠ some '/'
  parts_ne_empty : ∀ part ∈ Text.split '/' path, part ≠ ""

variable {path : String}

theorem namesFile_of_parts (h : ∀ part ∈ Text.split '/' path, part ≠ "") : NamesFile path := by
  refine ⟨fun hempty => ?_, fun hhead => ?_, h⟩
  · rw [hempty] at h
    exact h "" (by decide) rfl
  · obtain ⟨rest, hpath⟩ := List.head?_eq_some_iff.mp hhead
    exact h "" (by simp [Text.split, hpath, Text.splitList]) rfl

/-- Below a directory a path is taken as it is, or with a slash in front. -/
theorem Path.join_eq (directory path : String) :
    Path.join directory path = path ∨
      ∃ front, Path.join directory path = front ++ "/" ++ path := by
  unfold Path.join
  split_ifs with hwhole hslash
  · exact .inl rfl
  · obtain ⟨front, hfront⟩ := List.getLast?_eq_some_iff.mp hslash
    have hdirectory : directory = String.ofList front ++ "/" := by
      apply String.toList_inj.mp
      simp [hfront, String.toList_append]
    exact .inr ⟨String.ofList front, by rw [hdirectory]⟩
  · exact .inr ⟨directory, rfl⟩

theorem lacksName_append_iff (front path : String) :
    LacksName (front ++ "/" ++ path) ↔ LacksName path := by
  have hsplit : Text.split '/' (front ++ "/" ++ path) =
      Text.split '/' front ++ Text.split '/' path := Text.split_append_separator front path
  rw [LacksName, hsplit, List.getLast?_append_of_ne_nil _ (Text.split_ne_nil path), LacksName]

/-- Whether a path ends in a name does not depend on the directory it is taken from. -/
theorem lacksName_join_iff (directory path : String) :
    LacksName (Path.join directory path) ↔ LacksName path := by
  rcases Path.join_eq directory path with heq | ⟨front, heq⟩
  · rw [heq]
  · rw [heq, lacksName_append_iff]

theorem NamesFile.not_lacksName (h : NamesFile path) : ¬ LacksName path :=
  fun hempty => h.parts_ne_empty "" (List.mem_of_getLast? hempty) rfl

/-- No file is written where there is no name. -/
theorem Disk.write?_of_lacksName (h : LacksName path) (disk : Disk) (content : String) :
    disk.write? path content = none := by
  have hplace : disk.filePlace? path = none := by
    rw [LacksName] at h
    simp [Disk.filePlace?, h]
  rw [Disk.write?, hplace, Option.bind_none]

namespace Reference

variable {pattern replacement text template name : String} {several : Bool}

/-! ## Slashes -/

/-- A text has nothing but slashes. -/
def OnlySlashes (text : String) : Prop := ∀ c ∈ text.toList, c = '/'

instance (text : String) : Decidable (OnlySlashes text) :=
  decidable_of_iff (text.toList.all (· = '/') = true) (by simp [OnlySlashes])

theorem onlySlashes_substitute_iff (hne : pattern ≠ "") :
    OnlySlashes (Text.substitute pattern replacement text) ↔
      OnlySlashes (Text.substitute pattern "" text) ∧
        (pattern.toList <:+: text.toList → OnlySlashes replacement) := by
  unfold OnlySlashes Text.substitute
  rw [String.toList_ofList, String.toList_ofList]
  exact Text.forall_mem_substituteFrom_iff (by simpa using hne)

/-- What is only slashes counts for nothing. -/
theorem onlySlashes_substitute_of_onlySlashes (hne : pattern ≠ "") (h : OnlySlashes replacement) :
    OnlySlashes (Text.substitute pattern replacement text) ↔
      OnlySlashes (Text.substitute pattern "" text) := by
  rw [onlySlashes_substitute_iff hne, and_iff_left fun _ => h]

/-- What is more than slashes counts as much as the placeholder that it stands for. -/
theorem onlySlashes_substitute_of_not (hpattern : ¬ OnlySlashes pattern)
    (h : ¬ OnlySlashes replacement) :
    OnlySlashes (Text.substitute pattern replacement text) ↔ OnlySlashes text := by
  have hne : pattern ≠ "" := by
    rintro rfl
    exact hpattern (by simp [OnlySlashes])
  have hkept : ¬ pattern.toList <:+: text.toList → Text.substitute pattern "" text = text := by
    intro hnone
    rw [Text.substitute, Text.substituteFrom_of_not_infix (by simpa using hne) hnone,
      String.ofList_toList]
  rw [onlySlashes_substitute_iff hne]
  constructor
  · rintro ⟨hslashes, hnone⟩
    rwa [hkept fun hoccurs => h (hnone hoccurs)] at hslashes
  · intro hslashes
    have hnone : ¬ pattern.toList <:+: text.toList := fun hoccurs =>
      hpattern fun c hc => hslashes c (hoccurs.subset hc)
    rw [hkept hnone]
    exact ⟨hslashes, fun hoccurs => absurd hoccurs hnone⟩

/-! ## Templates -/

/-- A template with the placeholders filled in. -/
def filledIn (template name : String) (several : Bool) : String :=
  Text.substitute servicePlaceholder name
    (Text.substitute multiplePlaceholder (if several then name else "") template)

/-- The parts of the path that a template comes to, without the empty ones. -/
def filledParts (template name : String) (several : Bool) : List String :=
  (Text.split '/' (filledIn template name several)).filter (· ≠ "")

theorem outputFile_eq_join (template name : String) (several : Bool) :
    outputFile template name several = Text.join '/' (filledParts template name several) :=
  rfl

theorem outputFile_eq_empty_iff :
    outputFile template name several = "" ↔ OnlySlashes (filledIn template name several) := by
  have hparts : ∀ part ∈ filledParts template name several, part ≠ "" := fun part hpart => by
    simpa using (List.mem_filter.mp hpart).2
  rw [outputFile_eq_join, Text.join_eq_empty_iff hparts, filledParts, List.filter_eq_nil_iff,
    OnlySlashes, ← Text.forall_mem_splitList_iff, Text.split]
  simp

theorem namesFile_outputFile (h : outputFile template name several ≠ "") :
    NamesFile (outputFile template name several) := by
  apply namesFile_of_parts
  rw [outputFile_eq_join] at h ⊢
  have hne : filledParts template name several ≠ [] := by
    intro hnil
    exact h (by rw [hnil]; rfl)
  have hslash : ∀ part ∈ filledParts template name several, '/' ∉ part.toList := fun part hpart =>
    Text.not_mem_of_mem_split (List.mem_filter.mp hpart).1
  rw [Text.split_join hslash hne]
  intro part hpart
  simpa using (List.mem_filter.mp hpart).2

/-- What a template comes to beside the name of the service: all of the template if there are
several services, and the template without the placeholder for several if there is one. A name that
is only slashes is left out as well. -/
def remainder (template name : String) (several : Bool) : String :=
  if OnlySlashes name then
    Text.substitute servicePlaceholder ""
      (Text.substitute multiplePlaceholder (if several then name else "") template)
  else if several then template
  else Text.substitute multiplePlaceholder "" template

theorem onlySlashes_filledIn_iff :
    OnlySlashes (filledIn template name several) ↔
      OnlySlashes (remainder template name several) := by
  unfold filledIn remainder
  by_cases hname : OnlySlashes name
  · rw [if_pos hname, onlySlashes_substitute_of_onlySlashes (by decide) hname]
  · rw [if_neg hname, onlySlashes_substitute_of_not (by decide) hname]
    cases several with
    | false => rfl
    | true => exact onlySlashes_substitute_of_not (by decide) hname

/-! ## The files of a program -/

/-- Whether a program has several services. -/
def hasSeveral (g : Graph) : Bool := 1 < (documentedServices g).length

/-- The name of the file of a service. -/
def fileName (g : Graph) (o : Options) (s : Service) : String :=
  outputFile o.outputFile (serviceName s) (hasSeveral g)

theorem files_eq_fileNames {g : Graph} (o : Options) (he : g.hasErrors = false) :
    files g o = Keyed.ofList (·.1)
      ((documentedServices g).map fun s => (fileName g o s, serviceDocument g s)) := by
  rw [files, he]
  rfl

/-- **Which templates name a file.** Whatever the options and the service are, the file name is a
relative path without empty parts, and below every directory it ends in a name, unless the template
comes to nothing but slashes beside the name of the service; and then the file name is empty, and no
file is written below any directory. -/
theorem fileName_names_file (g : Graph) (o : Options) (s : Service) :
    (¬ OnlySlashes (remainder o.outputFile (serviceName s) (hasSeveral g)) →
      NamesFile (fileName g o s) ∧
        ∀ directory, ¬ LacksName (Path.join directory (fileName g o s))) ∧
    (OnlySlashes (remainder o.outputFile (serviceName s) (hasSeveral g)) →
      fileName g o s = "" ∧ ∀ (directory content : String) (disk : Disk),
        disk.write? (Path.join directory (fileName g o s)) content = none) := by
  rw [← onlySlashes_filledIn_iff, ← outputFile_eq_empty_iff]
  constructor
  · intro hne
    have hnames : NamesFile (fileName g o s) := namesFile_outputFile hne
    refine ⟨hnames, fun directory hlacks => ?_⟩
    exact hnames.not_lacksName ((lacksName_join_iff directory _).mp hlacks)
  · intro hempty
    have hname : fileName g o s = "" := hempty
    refine ⟨hname, fun directory content disk => disk.write?_of_lacksName ?_ content⟩
    rw [hname, lacksName_join_iff]
    rfl

/-- The default template names a file for every service. -/
theorem namesFile_default (g : Graph) (s : Service) : NamesFile (fileName g {} s) := by
  have hmultiple : ∀ filling, Text.substitute multiplePlaceholder filling
      ({} : Options).outputFile = ({} : Options).outputFile := fun _ => rfl
  have hservice : Text.substitute servicePlaceholder "" ({} : Options).outputFile = ".md" := rfl
  have hremainder : ¬ OnlySlashes
      (remainder ({} : Options).outputFile (serviceName s) (hasSeveral g)) := by
    unfold remainder
    rw [hmultiple, hmultiple, hservice]
    split_ifs
    all_goals decide
  exact namesFile_outputFile (mt outputFile_eq_empty_iff.mp
    (mt onlySlashes_filledIn_iff.mp hremainder))

/-- A bakery, which is the only service. -/
def bakery : Document :=
  { root :=
      { name := ""
        namespaces := [
          { name := "Bakery", service := some ⟨some "Bakery"⟩
            operations := [⟨"list", .get, "/breads", none, none, [], none, []⟩] }] }
    diagnostics := [] }

/-- A template that is accepted can leave a service without a file name: one that is a slash, or the
placeholder for several services where there is one. No file can be written there. -/
theorem names_no_file_bakery : ∃ g s, Graph.ofDocument bakery = .ok g ∧ g.hasErrors = false ∧
    documentedServices g = [s] ∧
    ∀ template ∈ ["/", "\x7bservice-name-if-multiple\x7d"],
      (⟨template⟩ : Options).validate = .ok () ∧
      (files g ⟨template⟩).map (·.1) = [""] ∧ ¬ NamesFile (fileName g ⟨template⟩ s) ∧
      ∀ (directory content : String) (disk : Disk),
        disk.write? (Path.join directory "") content = none := by
  obtain ⟨g, s, hg, he, hservices, hservice⟩ : ∃ g s, Graph.ofDocument bakery = .ok g ∧
      g.hasErrors = false ∧ documentedServices g = [s] ∧ serviceName s = "Bakery" :=
    ⟨_, _, rfl, rfl, rfl, rfl⟩
  refine ⟨g, s, hg, he, hservices, fun template htemplate => ?_⟩
  have haccepted : (⟨template⟩ : Options).validate = .ok () := by
    revert template
    decide
  have hempty : outputFile template "Bakery" false = "" := by
    revert template
    decide
  have hname : fileName g ⟨template⟩ s = "" := by
    rw [fileName, hasSeveral, hservices, hservice]
    exact hempty
  refine ⟨haccepted, ?_, fun hnames => hnames.ne_empty hname, fun directory content disk => ?_⟩
  · rw [files_eq_fileNames _ he, hservices, List.map_singleton, hname]
    rfl
  · apply disk.write?_of_lacksName
    rw [lacksName_join_iff]
    rfl

end Reference

end ApiEmit
