/-
ApiEmit.Proofs.HostRuns — what emitters leave on a host.

An emitter either refuses its options, and then the host is as before, or returns files, and then
the host differs from before by just these (`Updated`). So what a host holds after any calls can be
read off their answers: `holds_last_returned`.
-/
import ApiEmit.Host.Emission
import ApiEmit.Proofs.Emission
import ApiEmit.Proofs.Joined

namespace ApiEmit

/-! ## The content of a path -/

namespace MemoryHost

variable {host host' host'' : MemoryHost} {files files' : List (String × String)}

/-- What some files say about a path: the content of the last one that has it. -/
def last? (files : List (String × String)) (path : String) : Option String :=
  (files.reverse.find? fun file => Path.key file.1 = Path.key path).map (·.2)

theorem last?_append (files files' : List (String × String)) (path : String) :
    last? (files ++ files') path = (last? files' path).or (last? files path) := by
  unfold last?
  rw [List.reverse_append, List.find?_append, Option.map_or]

/-- Files that do not have a path say nothing about it. -/
theorem last?_eq_none {path : String} (h : ∀ file ∈ files, Path.key file.1 ≠ Path.key path) :
    last? files path = none := by
  have hnone : ∀ file ∈ files.reverse, ¬ decide (Path.key file.1 = Path.key path) = true := by
    simpa using h
  rw [last?, List.find?_eq_none.mpr hnone, Option.map_none]

/-- Among files with different paths each one says what it holds. -/
theorem last?_eq_some (h : (files.map fun file => Path.key file.1).Nodup)
    {file : String × String} (hfile : file ∈ files) : last? files file.1 = some file.2 := by
  have hreverse : (files.reverse.map fun file => Path.key file.1).Nodup := by
    rwa [List.map_reverse, List.nodup_reverse]
  have hfind := Keyed.find?_key_eq_some hreverse (List.mem_reverse.mpr hfile)
  change files.reverse.find? (fun other => decide (Path.key other.1 = Path.key file.1)) = _ at hfind
  rw [last?, hfind, Option.map_some]

/-- Text with its lines ended by line feeds is left as it is. -/
theorem apply_lf (text : String) : LineEnding.lf.apply text = text :=
  String.ofList_toList

/-- Writing a file changes what its path holds, and nothing else. -/
theorem get?_write (host : MemoryHost) (file content path : String) :
    (host.write file content .lf).get? path =
      if Path.key file = Path.key path then some content else host.get? path := by
  obtain ⟨files⟩ := host
  unfold write get?
  rw [apply_lf]
  induction files with
  | nil => by_cases h : Path.key file = Path.key path <;> simp [writeIn, h]
  | cons first rest ih =>
    obtain ⟨other, old⟩ := first
    rw [writeIn]
    by_cases hother : Path.key other = Path.key file
    · rw [if_pos hother]
      by_cases h : Path.key file = Path.key path
      · simp [hother, h]
      · simp [hother, h]
    · rw [if_neg hother]
      by_cases h : Path.key other = Path.key path
      · have hne : Path.key file ≠ Path.key path := fun heq => hother (h.trans heq.symm)
        simp [h, hne]
      · simpa [h] using ih

/-- A host is another one with some files written to it. -/
def Updated (host : MemoryHost) (files : List (String × String)) (host' : MemoryHost) : Prop :=
  ∀ path, host'.get? path = (last? files path).or (host.get? path)

theorem updated_nil (host : MemoryHost) : host.Updated [] host :=
  fun _ => rfl

theorem updated_write (host : MemoryHost) (file : String × String) :
    host.Updated [file] (host.write file.1 file.2 .lf) := by
  intro path
  rw [get?_write]
  by_cases h : Path.key file.1 = Path.key path <;> simp [last?, h]

theorem Updated.append (h : host.Updated files host') (h' : host'.Updated files' host'') :
    host.Updated (files ++ files') host'' := by
  intro path
  rw [h' path, h path, last?_append, Option.or_assoc]

end MemoryHost

/-! ## One emitter -/

namespace OnMemory

/-- Writing files never fails, and the host then has them. -/
theorem exists_run_writeFiles (files : List (String × String)) (host : MemoryHost) :
    ∃ host', (writeFiles files).run.run host = (.ok (), host') ∧ host.Updated files host' := by
  induction files generalizing host with
  | nil => exact ⟨host, rfl, host.updated_nil⟩
  | cons file rest ih =>
    obtain ⟨host', hrun, hrest⟩ := ih (host.write file.1 file.2 .lf)
    exact ⟨host', hrun, (host.updated_write file).append hrest⟩

theorem run_emitFiles_error (e : OptionError) (files : List (String × String))
    (host : MemoryHost) : (emitFiles (.error e) files).run.run host = (.error e, host) :=
  rfl

theorem exists_run_emitFiles_ok (files : List (String × String)) (host : MemoryHost) :
    ∃ host', (emitFiles (.ok ()) files).run.run host = (.ok files, host') ∧
      host.Updated files host' := by
  obtain ⟨host', hrun, hupdated⟩ := exists_run_writeFiles files host
  refine ⟨host', ?_, hupdated⟩
  have hthen : (emitFiles (.ok ()) files).run.run host =
      ((writeFiles files >>= fun _ => pure files : OnMemory _)).run.run host := rfl
  rw [hthen, ExceptT.run_bind, StateT.run_bind, hrun]
  rfl

end OnMemory

/-! ## The paths of modules -/

/-- A text without slashes that is neither empty nor a dot is a path of one part. -/
theorem Path.key_of_not_slash {text : String} (h : '/' ∉ text.toList) (hpart : isPart text) :
    key text = ⟨false, [text]⟩ := by
  have hparts : text ≠ "" ∧ text ≠ "." := by simpa [isPart] using hpart
  unfold key
  rw [Text.split_of_not_mem h]
  split
  · rename_i heq
    cases heq
  · rename_i heq
    exact absurd (List.cons.inj heq).1 hparts.2
  · rename_i heq
    obtain ⟨rfl, rfl⟩ := List.cons.inj heq
    rw [List.filter_cons_of_pos hpart, List.isEmpty_nil, Bool.not_true, Bool.and_false]
    rfl

namespace Pydantic

variable {g : Graph} {o : Options}

theorem isIdentifier_moduleFor (ho : o.validate = .ok ()) (u : Usage) :
    Python.isIdentifier (o.moduleFor u) = true := by
  have hvalid : Options.firstInvalid? o.moduleNames = none := by
    unfold Options.validate at ho
    cases hor : (Options.firstInvalid? o.moduleNames).or (Options.firstTaken? [] o.moduleNames) with
    | some error =>
      rw [hor] at ho
      cases ho
    | none => exact (Option.or_eq_none_iff.mp hor).1
  have hall : ∀ entry ∈ o.moduleNames, Python.isIdentifier entry.2 = true := by
    simpa [Options.firstInvalid?, List.findSome?_eq_none_iff] using hvalid
  cases u
  · exact hall ("input-module-name", o.inputModule) (by simp [Options.moduleNames])
  · exact hall ("output-module-name", o.outputModule) (by simp [Options.moduleNames])
  · exact hall ("roundtrip-module-name", o.roundtripModule) (by simp [Options.moduleNames])

theorem not_slash_of_isIdentifier {name : String} (h : Python.isIdentifier name = true) :
    '/' ∉ name.toList := by
  unfold Python.isIdentifier at h
  intro hslash
  cases hchars : name.toList with
  | nil =>
    rw [hchars] at hslash
    cases hslash
  | cons c rest =>
    rw [hchars] at h hslash
    simp only [Bool.and_eq_true, List.all_eq_true] at h
    rcases List.mem_cons.mp hslash with rfl | hrest
    · exact absurd h.1.1 (by decide)
    · exact absurd (h.1.2 '/' hrest) (by decide)

/-- The file of a module lies where its name says. -/
theorem key_fileName {name : String} (h : Python.isIdentifier name = true) :
    Path.key (fileName name) = ⟨false, [fileName name]⟩ := by
  apply Path.key_of_not_slash
  · rw [fileName, String.toList_append, List.mem_append, not_or]
    exact ⟨not_slash_of_isIdentifier h, by decide⟩
  · have hlength : ∀ text : String, (fileName name) = text → 3 ≤ text.toList.length := by
      rintro _ rfl
      simp [fileName, String.toList_append]
    have hempty : fileName name ≠ "" := fun heq => absurd (hlength _ heq) (by decide)
    have hdot : fileName name ≠ "." := fun heq => absurd (hlength _ heq) (by decide)
    simp [Path.isPart, hempty, hdot]

/-- Where the options are accepted, the modules have different paths. -/
theorem paths_nodup (ho : o.validate = .ok ()) (g : Graph) :
    ((files g o).map fun file => Path.key file.1).Nodup := by
  have hnames : ((files g o).map (·.1)).Nodup := by
    rw [files_eq ho, List.map_map]
    exact fileNames_nodup ho g
  have hkey : ∀ file ∈ files g o, Path.key file.1 = ⟨false, [file.1]⟩ := by
    intro file hfile
    rw [files_eq ho] at hfile
    obtain ⟨entry, hentry, rfl⟩ := List.mem_map.mp hfile
    obtain ⟨_, u, _, rfl⟩ := mem_modules_iff.mp hentry
    exact key_fileName (isIdentifier_moduleFor ho u)
  rw [List.map_congr_left hkey]
  have hmap : (files g o).map (fun file => (⟨false, [file.1]⟩ : Path.Key)) =
      ((files g o).map (·.1)).map fun name => ⟨false, [name]⟩ := by
    rw [List.map_map]
    rfl
  rw [hmap]
  exact hnames.map fun name other heq => List.singleton_inj.mp (Path.Key.mk.inj heq).2

end Pydantic

/-! ## Calls -/

/-- A call of an emitter with a program and options. -/
inductive EmitCall where
  | pydantic (g : Graph) (o : Pydantic.Options)
  | apiDocs (g : Graph) (o : Reference.Options)

namespace EmitCall

/-- The program that is emitted. -/
def graph : EmitCall → Graph
  | .pydantic g _ => g
  | .apiDocs g _ => g

/-- Whether the options are accepted. -/
def validate : EmitCall → Except OptionError Unit
  | .pydantic _ o => o.validate
  | .apiDocs _ o => o.validate

/-- The files that are made. -/
def files : EmitCall → List (String × String)
  | .pydantic g o => Pydantic.files g o
  | .apiDocs g o => Reference.files g o

/-- What a call answers, and the host that it leaves. -/
def on (c : EmitCall) (host : MemoryHost) :
    Except OptionError (List (String × String)) × MemoryHost :=
  match c with
  | .pydantic g o => (Pydantic.emitter g o).run.run host
  | .apiDocs g o => (Reference.emitter g o).run.run host

/-- Calls one after the other, each on the host that the one before it left, whatever that one
answered: the answers, and the host in the end. -/
def onAll : List EmitCall → MemoryHost →
    List (Except OptionError (List (String × String))) × MemoryHost
  | [], host => ([], host)
  | c :: rest, host =>
    let later := onAll rest (c.on host).2
    ((c.on host).1 :: later.1, later.2)

/-- The files of an answer. -/
def filesOf (answer : Except OptionError (List (String × String))) : List (String × String) :=
  answer.toOption.getD []

theorem on_eq (c : EmitCall) (host : MemoryHost) :
    c.on host = (OnMemory.emitFiles c.validate c.files).run.run host := by
  cases c <;> rfl

variable {c : EmitCall} {host : MemoryHost}

/-- A call whose options are refused says why, and leaves the host alone. -/
theorem on_of_error {e : OptionError} (h : c.validate = .error e) (host : MemoryHost) :
    c.on host = (.error e, host) := by
  rw [on_eq, h]
  exact OnMemory.run_emitFiles_error e c.files host

/-- Otherwise it answers the files that it makes, and the host has them. -/
theorem on_of_ok (h : c.validate = .ok ()) (host : MemoryHost) :
    (c.on host).1 = .ok c.files ∧ host.Updated c.files (c.on host).2 := by
  obtain ⟨host', hrun, hupdated⟩ := OnMemory.exists_run_emitFiles_ok c.files host
  rw [on_eq, h, hrun]
  exact ⟨rfl, hupdated⟩

/-- A program with errors has no files. -/
theorem files_of_hasErrors (h : c.graph.hasErrors = true) : c.files = [] := by
  cases c with
  | pydantic g o =>
    have hmodules : Pydantic.modules g o = [] := if_pos h
    rw [files, Pydantic.files, hmodules]
    rfl
  | apiDocs g o => exact if_pos h

/-- The returned files have different names. -/
theorem names_nodup (c : EmitCall) : (c.files.map (·.1)).Nodup := by
  have hkept : ∀ entries : List (String × String),
      ((Keyed.ofList (·.1) entries).map (·.1)).Nodup := fun entries => by
    rw [Keyed.map_ofList]
    exact Keyed.keysOf_nodup _ _
  cases c with
  | pydantic g o => exact hkept _
  | apiDocs g o =>
    rw [files, Reference.files]
    split
    · exact List.nodup_nil
    · exact hkept _

/-- Whatever a call answers, it changes the host by the files of its answer. -/
theorem updated_on (c : EmitCall) (host : MemoryHost) :
    host.Updated (filesOf (c.on host).1) (c.on host).2 := by
  cases h : c.validate with
  | error e =>
    rw [on_of_error h]
    exact host.updated_nil
  | ok =>
    obtain ⟨hanswer, hupdated⟩ := on_of_ok h host
    rw [hanswer]
    exact hupdated

/-- Calls change the host by the files of their answers. -/
theorem updated_onAll (calls : List EmitCall) (host : MemoryHost) :
    host.Updated ((onAll calls host).1.flatMap filesOf) (onAll calls host).2 := by
  induction calls generalizing host with
  | nil => exact host.updated_nil
  | cons c rest ih => exact (updated_on c host).append (ih (c.on host).2)

/-! ## All or nothing -/

/-- A call writes all that it returns, or nothing. -/
structure AllOrNothing (c : EmitCall) (host : MemoryHost) : Prop where
  /-- Only options are refused. -/
  error_iff : ∀ e, (c.on host).1 = .error e ↔ c.validate = .error e
  /-- Then the host is as before. -/
  refused : ∀ e, (c.on host).1 = .error e → (c.on host).2 = host
  /-- Of a program with errors nothing is returned, and the host is as before. -/
  faulty : c.validate = .ok () → c.graph.hasErrors = true → c.on host = (.ok [], host)
  /-- Otherwise the files of the program are returned, under different names. -/
  returned : c.validate = .ok () → (c.on host).1 = .ok c.files ∧ (c.files.map (·.1)).Nodup
  /-- Where the names are different paths, each has the content that is returned for it. -/
  written : c.validate = .ok () → (c.files.map fun file => Path.key file.1).Nodup →
    ∀ file ∈ c.files, (c.on host).2.get? file.1 = some file.2
  /-- All other paths have what they had. -/
  others : c.validate = .ok () → ∀ path, (∀ file ∈ c.files, Path.key file.1 ≠ Path.key path) →
    (c.on host).2.get? path = host.get? path
  /-- The names of Pydantic modules are always different paths. -/
  paths : ∀ g o, c = .pydantic g o → o.validate = .ok () →
    (c.files.map fun file => Path.key file.1).Nodup

theorem allOrNothing (c : EmitCall) (host : MemoryHost) : AllOrNothing c host := by
  have herror : ∀ e, (c.on host).1 = .error e ↔ c.validate = .error e := by
    intro e
    refine ⟨fun h => ?_, fun h => by rw [on_of_error h]⟩
    cases hvalidate : c.validate with
    | error e' =>
      rw [on_of_error hvalidate] at h
      exact congrArg _ (Except.error.inj h)
    | ok =>
      rw [(on_of_ok hvalidate host).1] at h
      cases h
  exact {
    error_iff := herror
    refused := fun e h => by rw [on_of_error ((herror e).mp h)]
    faulty := fun h he => by
      rw [on_eq, h, files_of_hasErrors he]
      rfl
    returned := fun h => ⟨(on_of_ok h host).1, names_nodup c⟩
    written := fun h hpaths file hfile => by
      rw [(on_of_ok h host).2, MemoryHost.last?_eq_some hpaths hfile, Option.some_or]
    others := fun h path hpath => by
      rw [(on_of_ok h host).2, MemoryHost.last?_eq_none hpath, Option.none_or]
    paths := by
      rintro g o rfl ho
      exact Pydantic.paths_nodup ho g }

/-- **Emission is all or nothing on a host.** A call that refuses its options, or has a program with
errors, leaves the host as it is; any other writes just what it returns. So after any calls of
either emitter, with any programs and options, a path has the content that was returned for it last,
and what was never returned has the content that it had. -/
theorem holds_last_returned (host : MemoryHost) :
    (∀ c, AllOrNothing c host) ∧
    ∀ calls path, (onAll calls host).2.get? path =
      (MemoryHost.last? ((onAll calls host).1.flatMap filesOf) path).or (host.get? path) :=
  ⟨fun c => allOrNothing c host, fun calls => updated_onAll calls host⟩

/-- A call that is refused leaves the host to the next one. -/
example :
    let shop : Graph :=
      { namespaces := [⟨.root, none, some ⟨some "Shop"⟩, [], [], [], [], []⟩]
        declarations := [], operations := [], diagnostics := [] }
    onAll [.apiDocs shop { outputFile := " " }, .apiDocs shop {}] ⟨[("notes.md", "kept")]⟩ =
      ([.error (.empty "output-file"), .ok [("api.md", "# Shop API Reference\n")]],
        ⟨[("notes.md", "kept"), ("api.md", "# Shop API Reference\n")]⟩) :=
  rfl

end EmitCall

end ApiEmit
