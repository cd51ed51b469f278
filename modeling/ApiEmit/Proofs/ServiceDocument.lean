/-
ApiEmit.Proofs.ServiceDocument — every operation and every response is documented once.

Which errors are common is said by counting: `IsCommon` counts the operations that can fail in a
way, each once, however often it names the response. `Layout` is what a document is put together
from, with its own accounting: the sections share out the operations, and the common errors are
those that are counted often enough, each once. A document has such a layout (`exists_layout`), so
what is left out of an operation stands with the common errors, and nothing else is left out.
-/
import ApiEmit.Proofs.Keyed
import ApiEmit.Reference.Document
import Mathlib.Data.List.Count

namespace ApiEmit.Reference

open Markdown (block heading)

variable {g : Graph} {s : Service}

/-! ## Common errors -/

/-- One of the error responses of an operation has a fingerprint. -/
def FailsAs (g : Graph) (print : String) (op : Operation) : Prop :=
  ∃ r ∈ op.responses, r.status.isError = true ∧ fingerprint g r = print

instance (g : Graph) (print : String) (op : Operation) : Decidable (FailsAs g print op) :=
  inferInstanceAs
    (Decidable (∃ r ∈ op.responses, r.status.isError = true ∧ fingerprint g r = print))

/-- Of some operations, two or more, at least half can fail in a way. -/
def IsCommon (g : Graph) (operations : List Operation) (print : String) : Prop :=
  2 ≤ operations.length ∧
    operations.length ≤ 2 * operations.countP fun op => decide (FailsAs g print op)

instance (g : Graph) (operations : List Operation) (print : String) :
    Decidable (IsCommon g operations print) :=
  inferInstanceAs (Decidable (_ ∧ _))

/-- A response is an error that is common to some operations. -/
def IsCommonError (g : Graph) (operations : List Operation) (r : Response) : Prop :=
  r.status.isError = true ∧ IsCommon g operations (fingerprint g r)

instance (g : Graph) (operations : List Operation) (r : Response) :
    Decidable (IsCommonError g operations r) :=
  inferInstanceAs (Decidable (_ ∧ _))

/-- It does not matter in which order the operations stand. -/
theorem isCommon_congr {operations operations' : List Operation}
    (h : operations.Perm operations') (print : String) :
    IsCommon g operations print ↔ IsCommon g operations' print := by
  unfold IsCommon
  rw [h.length_eq, h.countP_eq]

/-- A common error is one of an operation. -/
theorem IsCommon.exists_failsAs {operations : List Operation} {print : String}
    (h : IsCommon g operations print) : ∃ op ∈ operations, FailsAs g print op := by
  have hpos : 0 < operations.countP fun op => decide (FailsAs g print op) := by
    have := h.1
    have := h.2
    omega
  obtain ⟨op, hop, hfails⟩ := List.countP_pos_iff.mp hpos
  exact ⟨op, hop, of_decide_eq_true hfails⟩

/-! ## Counting -/

/-- The error responses of an operation are listed under their fingerprints. -/
theorem of_mem_errorsOf {op : Operation} {entry : String × Response}
    (h : entry ∈ errorsOf g op) : entry.2 ∈ op.responses ∧ entry.2.status.isError = true ∧
      fingerprint g entry.2 = entry.1 := by
  obtain ⟨r, hr, rfl⟩ := List.mem_map.mp (Keyed.mem_of_mem_firsts h)
  obtain ⟨hmem, herror⟩ := List.mem_filter.mp hr
  exact ⟨hmem, herror, rfl⟩

theorem mem_map_errorsOf_iff {op : Operation} {print : String} :
    print ∈ (errorsOf g op).map (·.1) ↔ FailsAs g print op := by
  unfold errorsOf
  rw [Keyed.mem_map_firsts_iff]
  simp [FailsAs, and_assoc]

/-- An operation counts once for a fingerprint. -/
theorem count_errorsOf (op : Operation) (print : String) :
    ((errorsOf g op).map (·.1)).count print = if FailsAs g print op then 1 else 0 := by
  have hnodup : ((errorsOf g op).map (·.1)).Nodup := Keyed.map_firsts_nodup _ _
  rw [hnodup.count]
  simp only [mem_map_errorsOf_iff]

/-- As many operations can fail in a way as there are entries for its fingerprint. -/
theorem length_filter_errors (operations : List Operation) (print : String) :
    ((operations.flatMap (errorsOf g)).filter (·.1 == print)).length =
      operations.countP fun op => decide (FailsAs g print op) := by
  have hcount : ∀ entries : List (String × Response),
      (entries.filter (·.1 == print)).length = (entries.map (·.1)).count print := by
    intro entries
    rw [List.count_eq_countP, List.countP_map, List.countP_eq_length_filter]
    rfl
  rw [hcount]
  induction operations with
  | nil => rfl
  | cons op rest ih =>
    rw [List.flatMap_cons, List.map_append, List.count_append, ih, count_errorsOf,
      List.countP_cons, Nat.add_comm]
    simp

/-! ## The entries of the common errors -/

/-- The error responses of some operations by fingerprint. -/
def errors (g : Graph) (operations : List Operation) : List (String × Response) :=
  operations.flatMap (errorsOf g)

/-- The fingerprints of the common errors, in the order of their first appearance. -/
def commonPrints (g : Graph) (operations : List Operation) : List String :=
  (Keyed.keysOf (·.1) (errors g operations)).filter fun print => IsCommon g operations print

/-- The common errors by fingerprint, each with the first response of its kind. -/
def commonResponses (g : Graph) (operations : List Operation) : List (String × Response) :=
  (commonPrints g operations).filterMap fun print => (errors g operations).find? (·.1 == print)

theorem mem_errors_iff {operations : List Operation} {print : String} :
    print ∈ (errors g operations).map (·.1) ↔ ∃ op ∈ operations, FailsAs g print op := by
  simp only [errors, List.map_flatMap, List.mem_flatMap, mem_map_errorsOf_iff]

theorem mem_commonPrints_iff {operations : List Operation} {print : String} :
    print ∈ commonPrints g operations ↔ IsCommon g operations print := by
  unfold commonPrints
  rw [List.mem_filter, decide_eq_true_eq, Keyed.mem_keysOf_iff, mem_errors_iff]
  exact ⟨And.right, fun h => ⟨h.exists_failsAs, h⟩⟩

/-- There is a first error with a fingerprint, if there is one at all. -/
theorem exists_find?_errors {operations : List Operation} {print : String}
    (h : print ∈ (errors g operations).map (·.1)) :
    ∃ r, (errors g operations).find? (·.1 == print) = some (print, r) := by
  obtain ⟨entry, hmem, hentry⟩ := List.mem_map.mp h
  have hsome : ((errors g operations).find? (·.1 == print)).isSome :=
    List.find?_isSome.mpr ⟨entry, hmem, beq_iff_eq.mpr hentry⟩
  obtain ⟨first, hfirst⟩ := Option.isSome_iff_exists.mp hsome
  have hprint : first.1 = print := by simpa using List.find?_some hfirst
  exact ⟨first.2, hprint ▸ hfirst⟩

theorem map_commonResponses (operations : List Operation) :
    (commonResponses g operations).map (·.1) = commonPrints g operations := by
  unfold commonResponses
  rw [List.map_filterMap]
  have hfind : ∀ print ∈ commonPrints g operations,
      ((errors g operations).find? (·.1 == print)).map (·.1) = some print := by
    intro print hprint
    obtain ⟨hkey, _⟩ := List.mem_filter.mp hprint
    obtain ⟨r, hr⟩ := exists_find?_errors (Keyed.mem_keysOf_iff.mp hkey)
    rw [hr, Option.map_some]
  rw [List.filterMap_congr hfind, List.filterMap_some]

/-- A common error is written once. -/
theorem map_commonResponses_nodup (operations : List Operation) :
    ((commonResponses g operations).map (·.1)).Nodup := by
  rw [map_commonResponses]
  exact (Keyed.keysOf_nodup _ _).filter _

/-- What is written for a common error is an error response of an operation. -/
theorem of_mem_commonResponses {operations : List Operation} {entry : String × Response}
    (h : entry ∈ commonResponses g operations) : ∃ op ∈ operations, entry.2 ∈ op.responses ∧
      entry.2.status.isError = true ∧ fingerprint g entry.2 = entry.1 := by
  obtain ⟨print, _, hfind⟩ := List.mem_filterMap.mp h
  obtain ⟨op, hop, hentry⟩ := List.mem_flatMap.mp (List.mem_of_find?_eq_some hfind)
  exact ⟨op, hop, of_mem_errorsOf hentry⟩

/-- The errors that are gathered are the common ones, with the lines of their responses. -/
theorem commonErrors_eq (operations : List Operation) :
    commonErrors g operations =
      (commonResponses g operations).map fun entry => (entry.1, responseLines g entry.2) := by
  unfold commonErrors
  by_cases hone : operations.length ≤ 1
  · have hnone : commonPrints g operations = [] := by
      refine List.filter_eq_nil_iff.mpr fun print _ hcommon => ?_
      have := (of_decide_eq_true hcommon).1
      omega
    rw [if_pos hone, commonResponses, hnone]
    rfl
  · rw [if_neg hone, Keyed.groupBy_eq, List.filterMap_map, commonResponses, commonPrints,
      List.filterMap_filter, List.map_filterMap]
    refine List.filterMap_congr fun print _ => ?_
    have hcommon : IsCommon g operations print ↔ operations.length ≤
        2 * ((errors g operations).filter (·.1 == print)).length := by
      unfold IsCommon errors
      rw [length_filter_errors]
      exact and_iff_right (by omega)
    -- the first error with the fingerprint is the head of its group
    rw [← List.head?_filter]
    cases hgroup : (errors g operations).filter (·.1 == print) with
    | nil =>
      unfold errors at hgroup
      simp [hgroup]
    | cons first rest =>
      have hfirst : first.1 = print := by
        have hmem : first ∈ (errors g operations).filter (·.1 == print) := by simp [hgroup]
        simpa using (List.mem_filter.mp hmem).2
      rw [hgroup] at hcommon
      unfold errors at hgroup
      simp [hgroup, hcommon, hfirst]

/-- A response is left to the common errors exactly when it is one. -/
theorem isHoisted_eq (operations : List Operation) (r : Response) :
    isHoisted g (commonErrors g operations) r = decide (IsCommonError g operations r) := by
  have hlookup : ((commonErrors g operations).lookup (fingerprint g r)).isSome = true ↔
      IsCommon g operations (fingerprint g r) := by
    rw [Keyed.isSome_lookup_iff, commonErrors_eq, List.map_map]
    have hkeys : (commonResponses g operations).map
        ((·.1) ∘ fun entry => (entry.1, responseLines g entry.2)) = commonPrints g operations :=
      map_commonResponses operations
    rw [hkeys, mem_commonPrints_iff]
  rw [Bool.eq_iff_iff, decide_eq_true_eq, isHoisted, Bool.and_eq_true, hlookup]
  rfl

/-! ## The layout of a document -/

/-- What an operation begins with: all but its responses. -/
def operationHead (g : Graph) (op : Operation) : List String :=
  block [heading 3 (op.summary.getD op.name)] ++
    block [Markdown.code (op.verb.text ++ " " ++ op.path)] ++
    (match op.doc with
      | some doc => block [doc]
      | none => []) ++
    parameterLines g op.parameters ++ requestLines g op.body

/-- The heading of an operation, its summary or else its name, and below it the method and the
path. -/
theorem prefix_operationHead (g : Graph) (op : Operation) :
    ["### " ++ op.summary.getD op.name, "", "\x60" ++ op.verb.text ++ " " ++ op.path ++ "\x60",
      ""] <+: operationHead g op := by
  have hcode : Markdown.code (op.verb.text ++ " " ++ op.path) =
      "\x60" ++ op.verb.text ++ " " ++ op.path ++ "\x60" := by
    apply String.toList_inj.mp
    simp [Markdown.code]
  unfold operationHead
  rw [hcode, List.append_assoc, List.append_assoc]
  exact List.prefix_append _ _

/-- The line that lists the statuses of responses that are written with the common errors. -/
def commonNote (responses : List Response) : List String :=
  if responses.isEmpty then [] else
    block ["This operation also returns [common errors](#common-errors) (" ++
      String.intercalate ", " (responses.map (·.status.text)) ++ ")."]

/-- The responses of one of some operations: in their order those that are no common error, and
then the statuses of those that are. -/
def responsesSection (g : Graph) (operations : List Operation) (responses : List Response) :
    List String :=
  if responses.isEmpty then [] else
    block [heading 4 "Responses"] ++
      (responses.filter fun r => ¬ IsCommonError g operations r).flatMap (responseLines g) ++
      commonNote (responses.filter fun r => IsCommonError g operations r)

/-- A part of a document: the heading of a group, or an operation. -/
inductive Section where
  | heading (title : String)
  | operation (op : Operation)

namespace Section

/-- The operation that a section is about. -/
def operation? : Section → Option Operation
  | .heading _ => none
  | .operation op => some op

/-- The lines of a section, among some operations. -/
def lines (g : Graph) (operations : List Operation) : Section → List String
  | .heading title => block [Markdown.heading 2 title]
  | .operation op =>
    operationHead g op ++ responsesSection g operations op.responses ++ block ["---"]

end Section

/-- The section of the common errors, if there are any. -/
def commonSection (g : Graph) (common : List (String × Response)) : List String :=
  if common.isEmpty then [] else
    block [heading 2 "Common Errors"] ++
      block ["The following error responses apply to all operations in this API."] ++
      common.flatMap fun entry => responseLines g entry.2

/-- What the document of a service is put together from. -/
structure Layout (g : Graph) (s : Service) where
  /-- The sections in their order. -/
  sections : List Section
  /-- The common errors by fingerprint. -/
  common : List (String × Response)
  /-- Every operation has one section. -/
  operations_perm : (sections.filterMap Section.operation?).Perm s.operations
  /-- No common error is written twice. -/
  common_nodup : (common.map (·.1)).Nodup
  /-- The common errors are the fingerprints that at least half of the operations have. -/
  mem_common_iff : ∀ print, print ∈ common.map (·.1) ↔ IsCommon g s.operations print
  /-- What is written for one is an error response with the fingerprint. -/
  common_error : ∀ entry ∈ common, ∃ op ∈ s.operations, entry.2 ∈ op.responses ∧
    entry.2.status.isError = true ∧ fingerprint g entry.2 = entry.1

/-- The lines of a layout. -/
def Layout.lines (layout : Layout g s) : List String :=
  introLines g s ++ layout.sections.flatMap (Section.lines g s.operations) ++
    commonSection g layout.common

/-- A layout has the section of every operation. -/
theorem Layout.section_subset (layout : Layout g s) {op : Operation} (hop : op ∈ s.operations) :
    (Section.operation op).lines g s.operations ⊆ layout.lines := by
  have hin : op ∈ layout.sections.filterMap Section.operation? :=
    layout.operations_perm.mem_iff.mpr hop
  obtain ⟨part, hpart, hop⟩ := List.mem_filterMap.mp hin
  cases part with
  | heading => cases hop
  | operation other =>
    cases hop
    intro line hline
    have hlines := List.mem_flatMap.mpr ⟨_, hpart, hline⟩
    exact List.mem_append_left _ (List.mem_append_right _ hlines)

/-- So every operation has its heading in the document. -/
theorem Layout.heading_mem (layout : Layout g s) {op : Operation} (hop : op ∈ s.operations) :
    "### " ++ op.summary.getD op.name ∈ layout.lines := by
  have hhead := (prefix_operationHead g op).subset List.mem_cons_self
  exact layout.section_subset hop (List.mem_append_left _ (List.mem_append_left _ hhead))

/-- Every response of an operation that is no common error has its own heading there. -/
theorem Layout.response_mem (layout : Layout g s) {op : Operation} (hop : op ∈ s.operations)
    {r : Response} (hr : r ∈ op.responses) (hown : ¬ IsCommonError g s.operations r) :
    "##### " ++ r.status.text ++
      (((r.description.or (statusDescription? r.status)).map (" " ++ ·)).getD "") ∈
        layout.lines := by
  have hresponse := (prefix_responseLines g r).subset List.mem_cons_self
  have hin : r ∈ op.responses.filter fun r => ¬ IsCommonError g s.operations r :=
    List.mem_filter.mpr ⟨hr, decide_eq_true hown⟩
  apply layout.section_subset hop
  refine List.mem_append_left _ (List.mem_append_right _ ?_)
  rw [responsesSection, if_neg fun hnone => ?_]
  · refine List.mem_append_left _ (List.mem_append_right _ ?_)
    exact List.mem_flatMap.mpr ⟨r, hin, hresponse⟩
  · rw [List.isEmpty_iff.mp hnone] at hr
    cases hr

theorem operationLines_eq {operations operations' : List Operation}
    (h : operations.Perm operations') (op : Operation) :
    operationLines g (commonErrors g operations) op =
      (Section.operation op).lines g operations' := by
  have hhoisted : isHoisted g (commonErrors g operations) = fun r =>
      decide (IsCommonError g operations' r) := by
    funext r
    rw [isHoisted_eq, decide_eq_decide]
    exact and_congr_right' (isCommon_congr h _)
  have hresponses : responsesLines g (commonErrors g operations) op.responses =
      responsesSection g operations' op.responses := by
    unfold responsesLines responsesSection commonNote
    simp [hhoisted]
  unfold operationLines
  rw [hresponses]
  rfl

/-- The sections of a group. -/
def groupSections (group : String × List Operation) : List Section :=
  (if group.1 = "" then [] else [.heading group.1]) ++ group.2.map .operation

theorem groupLines_eq {operations operations' : List Operation}
    (h : operations.Perm operations') (group : String × List Operation) :
    groupLines g (commonErrors g operations) group =
      (groupSections group).flatMap (Section.lines g operations') := by
  unfold groupLines groupSections
  rw [List.flatMap_append, List.flatMap_map, List.flatMap_congr fun op _ => operationLines_eq h op]
  split
  · rfl
  · rw [List.flatMap_singleton]
    rfl

theorem filterMap_groupSections (group : String × List Operation) :
    (groupSections group).filterMap Section.operation? = group.2 := by
  unfold groupSections
  rw [List.filterMap_append, List.filterMap_map]
  split <;> simp [Section.operation?, Function.comp_def]

/-- The groups share out the operations. -/
theorem groups_perm (s : Service) : ((groups s).flatMap (·.2)).Perm s.operations := by
  unfold groups
  rw [Keyed.groupBy_eq, List.flatMap_map]
  exact Keyed.flatMap_filter_perm (Keyed.keysOf_nodup _ _) fun op hop =>
    Keyed.mem_keysOf_iff.mpr (List.mem_map_of_mem hop)

/-- **Every operation and every response is documented once.** The document of a service has one
section for each operation and one entry for each common error; an operation shows its responses in
order except for the common errors, whose statuses it lists. -/
theorem exists_layout (g : Graph) (s : Service) :
    ∃ layout : Layout g s, serviceLines g s = layout.lines ∧
      serviceDocument g s = Markdown.documentText layout.lines := by
  have hperm := groups_perm s
  let operations := (groups s).flatMap (·.2)
  let layout : Layout g s :=
    { sections := (groups s).flatMap groupSections
      common := commonResponses g operations
      operations_perm := by
        rw [List.filterMap_flatMap]
        simp only [filterMap_groupSections]
        exact hperm
      common_nodup := map_commonResponses_nodup operations
      mem_common_iff := fun print => by
        rw [map_commonResponses, mem_commonPrints_iff, isCommon_congr hperm]
      common_error := fun entry hentry => by
        obtain ⟨op, hop, herror⟩ := of_mem_commonResponses hentry
        exact ⟨op, hperm.mem_iff.mp hop, herror⟩ }
  have hlines : serviceLines g s = layout.lines := by
    unfold serviceLines Layout.lines
    have hsections : (groups s).flatMap (groupLines g (commonErrors g operations)) =
        layout.sections.flatMap (Section.lines g s.operations) := by
      rw [List.flatMap_assoc]
      exact List.flatMap_congr fun group _ => groupLines_eq hperm group
    have hcommon : commonLines (commonErrors g operations) = commonSection g layout.common := by
      unfold commonLines commonSection
      rw [commonErrors_eq, List.flatMap_map, List.isEmpty_map]
    dsimp only
    rw [hsections, hcommon]
  exact ⟨layout, hlines, by rw [serviceDocument, hlines]⟩

end ApiEmit.Reference
