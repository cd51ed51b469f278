/-
ApiEmit.Proofs.Startup — what a run starts from.

A configuration that leaves everything out is the default one, which is valid: no emitter refuses
the options that it falls back to. The files that a run is given lie in the working directory, and
what it is given is all that stands there (`Disk.relativeFiles_ofFiles`), since neither the
directories that are made for them nor the null device are files of its own.
-/
import ApiEmit.Config.Basic
import ApiEmit.Host.Disk
import ApiEmit.Proofs.Joined
import ApiEmit.Proofs.Keyed

namespace ApiEmit

/-! ## The default configuration -/

namespace Config

/-- A configuration that says what the fallbacks say is valid. -/
theorem validate_of_isDefault {c : Config} (h : c.isDefault = true) : c.validate = .ok () := by
  have hsame : c.pydantic = {} ∧ c.apiDocs = {} := by
    simp only [isDefault, same, Bool.and_eq_true, decide_eq_true_eq] at h
    exact ⟨h.1.2, h.2⟩
  rw [validate, hsame.1, hsame.2]
  decide

/-- Where a text has no value, everything is left to the fallbacks. -/
theorem ofYaml_of_leftOut {text : String} (h : Yaml.Node.ofText? text = some none) :
    ∃ c, Config.ofYaml text = .ok c ∧ c.isDefault = true := by
  have hdefault : isDefault {} = true := by decide
  refine ⟨{}, ?_, hdefault⟩
  have hsetting : ofSetting? Setting.leftOut = some {} := rfl
  rw [ofYaml, h]
  simp only [Option.bind_some, hsetting, validate_of_isDefault hdefault]

end Config

/-! ## The files that a run is given -/

namespace Disk

variable {disk disk' : Disk} {files : List (String × String)}

theorem files_of_makeDirectory? {place : List String}
    (h : disk.makeDirectory? place = some disk') : disk'.files = disk.files := by
  unfold makeDirectory? at h
  split at h
  · rw [Option.some.inj h]
  · split at h
    · cases h
    · rw [← Option.some.inj h]

/-- Making directories leaves the files. -/
theorem files_of_makeSteps? {place names : List String}
    (h : disk.makeSteps? place names = some disk') : disk'.files = disk.files := by
  induction names generalizing disk place with
  | nil => rw [Option.some.inj h]
  | cons name rest ih =>
    rw [makeSteps?] at h
    split at h
    · exact ih h
    · obtain ⟨made, hmade, hrest⟩ := Option.bind_eq_some_iff.mp h
      rw [ih hrest, files_of_makeDirectory? hmade]

/-- No name on a path is that of the root. -/
theorem ne_slash_of_mem_steps {path name : String} (h : name ∈ (steps path).2) : name ≠ "/" := by
  have hsplit : name ∈ Text.split '/' path := by
    unfold steps at h
    split at h
    · rename_i hparts
      rw [hparts]
      exact List.mem_cons_of_mem _ (List.mem_filter.mp h).1
    · exact (List.mem_filter.mp h).1
  rintro rfl
  exact Text.not_mem_of_mem_split hsplit (by decide)

theorem files_addFile {file : String × String}
    (hnew : (steps file.1).2 ∉ disk.files.map (·.1)) :
    (disk.addFile file).files = disk.files ++ [((steps file.1).2, file.2)] := by
  have hmade : ((disk.makeSteps? [] (steps file.1).2.dropLast).getD disk).files = disk.files := by
    cases hsteps : disk.makeSteps? [] (steps file.1).2.dropLast with
    | none => rfl
    | some made => exact files_of_makeSteps? hsteps
  rw [addFile, setFile, hmade, Keyed.put_of_not_mem hnew]

/-- Files at new places are put behind the others, in their order. -/
theorem files_foldl_addFile
    (hnodup : (disk.files.map (·.1) ++ files.map fun file => (steps file.1).2).Nodup) :
    (files.foldl addFile disk).files =
      disk.files ++ files.map fun file => ((steps file.1).2, file.2) := by
  induction files generalizing disk with
  | nil => rw [List.foldl_nil, List.map_nil, List.append_nil]
  | cons file rest ih =>
    have hnew : (steps file.1).2 ∉ disk.files.map (·.1) := fun hmem =>
      (List.nodup_append.mp hnodup).2.2 _ hmem _ List.mem_cons_self rfl
    have hadded := files_addFile hnew
    rw [List.foldl_cons, ih, hadded, List.append_assoc, List.map_cons, List.singleton_append]
    rw [hadded, List.map_append, List.append_assoc]
    exact hnodup

/-- Files at different places are all kept, in their order. -/
theorem files_ofFiles (hnodup : (files.map fun file => (steps file.1).2).Nodup) :
    (ofFiles files).files = bare.files ++ files.map fun file => ((steps file.1).2, file.2) := by
  refine files_foldl_addFile (List.nodup_append.mpr ⟨by decide, hnodup, ?_⟩)
  -- the null device has a name that no given path has
  intro place hplace other hother heq
  obtain ⟨file, _, rfl⟩ := List.mem_map.mp hother
  have hnull : (steps file.1).2 = ["/", "dev", "null"] := List.mem_singleton.mp (heq ▸ hplace)
  exact ne_slash_of_mem_steps (hnull ▸ List.mem_cons_self) rfl

/-- **The files in the working directory are those that are given.** -/
theorem relativeFiles_ofFiles (hnodup : (files.map fun file => (steps file.1).2).Nodup)
    (hbelow : ∀ file ∈ files, (steps file.1).2.head? ≠ some "..") :
    (ofFiles files).relativeFiles =
      files.map fun file => (String.intercalate "/" (steps file.1).2, file.2) := by
  have hkept : ∀ entry ∈ files.map fun file => ((steps file.1).2, file.2),
      isRelative entry.1 = true := by
    intro entry hentry
    obtain ⟨file, hfile, rfl⟩ := List.mem_map.mp hentry
    have hslash : (steps file.1).2.head? ≠ some "/" := fun hhead =>
      ne_slash_of_mem_steps (List.mem_of_mem_head? hhead) rfl
    simp [isRelative, hbelow file hfile, hslash]
  have hnull : (bare.files.filter (isRelative ·.1)) = [] := by decide
  rw [relativeFiles, files_ofFiles hnodup, List.filter_append, hnull, List.nil_append,
    List.filter_eq_self.mpr hkept, List.map_map]
  rfl

end Disk

end ApiEmit
