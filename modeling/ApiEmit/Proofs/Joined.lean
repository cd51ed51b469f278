/-
ApiEmit.Proofs.Joined — texts that are joined by a separator.

Where no part has the separator in it, the parts can be read back from the joined text, as long as
there is one or none of them is empty. A text that is split and joined is the text again.
-/
import ApiEmit.Text.Split
import Mathlib.Data.List.Nodup

namespace ApiEmit.Text

variable {separator : Char}

/-- A part that can be told from its neighbours: not empty, and without the separator. -/
def IsPart (separator : Char) (text : String) : Prop :=
  text ≠ "" ∧ separator ∉ text.toList

instance (separator : Char) (text : String) : Decidable (IsPart separator text) :=
  inferInstanceAs (Decidable (_ ∧ _))

/-- The texts joined with the separator between them. -/
def join (separator : Char) (parts : List String) : String :=
  String.intercalate (String.singleton separator) parts

theorem toList_join (separator : Char) (parts : List String) :
    (join separator parts).toList = [separator].intercalate (parts.map String.toList) := by
  rw [join, String.toList_intercalate, String.toList_singleton]

theorem splitOn_join {parts : List String} (h : ∀ part ∈ parts, separator ∉ part.toList)
    (hne : parts ≠ []) :
    (join separator parts).toList.splitOn separator = parts.map String.toList := by
  rw [toList_join]
  apply List.splitOn_intercalate
  · intro cs hcs
    obtain ⟨part, hpart, rfl⟩ := List.mem_map.mp hcs
    exact h part hpart
  · simpa using hne

theorem join_cons (first : String) {rest : List String} (h : rest ≠ []) :
    join separator (first :: rest) =
      first ++ String.singleton separator ++ join separator rest := by
  obtain ⟨second, others, rfl⟩ := List.exists_cons_of_ne_nil h
  exact String.intercalate_cons_cons

/-- Without empty parts, only nothing is joined to the empty text. -/
theorem join_eq_empty_iff {parts : List String} (h : ∀ part ∈ parts, part ≠ "") :
    join separator parts = "" ↔ parts = [] := by
  constructor
  · intro hempty
    cases parts with
    | nil => rfl
    | cons first rest =>
      have hfirst : first = "" := by
        by_cases hrest : rest = []
        · subst hrest
          exact String.intercalate_singleton.symm.trans hempty
        · rw [join_cons first hrest, String.append_eq_empty_iff, String.append_eq_empty_iff]
            at hempty
          exact hempty.1.1
      exact absurd hfirst (h first List.mem_cons_self)
  · rintro rfl
    rfl

/-- As long as there are any, parts without the separator can be read back from the joined text,
also empty ones. -/
theorem join_inj_of_ne_nil {parts parts' : List String} (hne : parts ≠ []) (hne' : parts' ≠ [])
    (h : ∀ part ∈ parts, separator ∉ part.toList) (h' : ∀ part ∈ parts', separator ∉ part.toList)
    (heq : join separator parts = join separator parts') : parts = parts' := by
  have hsplit := splitOn_join h hne
  rw [heq, splitOn_join h' hne'] at hsplit
  exact (List.map_injective_iff.mpr fun _ _ => String.toList_inj.mp) hsplit.symm

/-- Parts can be read back from the joined text. -/
theorem join_inj {parts parts' : List String} (h : ∀ part ∈ parts, IsPart separator part)
    (h' : ∀ part ∈ parts', IsPart separator part)
    (heq : join separator parts = join separator parts') : parts = parts' := by
  have hnil : parts = [] ↔ parts' = [] := by
    rw [← join_eq_empty_iff fun part hpart => (h part hpart).1, heq,
      join_eq_empty_iff fun part hpart => (h' part hpart).1]
  by_cases hne : parts = []
  · rw [hne, hnil.mp hne]
  · exact join_inj_of_ne_nil hne (mt hnil.mpr hne) (fun part hpart => (h part hpart).2)
      (fun part hpart => (h' part hpart).2) heq

/-- What stands in front of the first separator can be read back. -/
theorem append_separator_inj {text text' rest rest' : String} (h : separator ∉ text.toList)
    (h' : separator ∉ text'.toList)
    (heq : text ++ String.singleton separator ++ rest =
      text' ++ String.singleton separator ++ rest') : text = text' ∧ rest = rest' := by
  have hchars : text.toList ++ separator :: rest.toList =
      text'.toList ++ separator :: rest'.toList := by
    simpa [String.toList_append] using congrArg String.toList heq
  have hsplit := congrArg (List.splitOn separator) hchars
  rw [List.splitOn_append_cons_self_of_not_mem h,
    List.splitOn_append_cons_self_of_not_mem h'] at hsplit
  obtain rfl := String.toList_inj.mp (List.cons.inj hsplit).1
  exact ⟨rfl, String.toList_inj.mp (List.cons.inj (List.append_cancel_left hchars)).2⟩

/-- What is neither the separator nor in a part is not in the joined text. -/
theorem not_mem_join {c : Char} (hc : c ≠ separator) {parts : List String}
    (h : ∀ part ∈ parts, c ∉ part.toList) : c ∉ (join separator parts).toList := by
  rw [toList_join]
  induction parts with
  | nil => simp
  | cons first rest ih =>
    have hrest := ih fun part hpart => h part (List.mem_cons_of_mem _ hpart)
    cases rest with
    | nil => simpa using h first List.mem_cons_self
    | cons second rest =>
      rw [List.map_cons, List.map_cons, List.intercalate_cons_cons]
      simp only [List.mem_append, List.mem_singleton, not_or]
      exact ⟨⟨h first List.mem_cons_self, hc⟩, hrest⟩

/-- A text without the separator is its only part. -/
theorem splitList_of_not_mem {cs : List Char} (h : separator ∉ cs) :
    splitList separator cs = [cs] := by
  induction cs with
  | nil => rfl
  | cons c rest ih =>
    rw [List.mem_cons, not_or] at h
    rw [splitList, if_neg (Ne.symm h.1), ih h.2]

theorem split_of_not_mem {text : String} (h : separator ∉ text.toList) :
    split separator text = [text] := by
  rw [split, splitList_of_not_mem h, List.map_singleton, String.ofList_toList]

/-! ## Joining what was split -/

theorem join_append {front back : List String} (hfront : front ≠ []) (hback : back ≠ []) :
    join separator (front ++ back) =
      join separator front ++ String.singleton separator ++ join separator back := by
  induction front with
  | nil => exact absurd rfl hfront
  | cons first rest ih =>
    rw [List.cons_append, join_cons first (List.append_ne_nil_of_right_ne_nil _ hback)]
    by_cases hrest : rest = []
    · subst hrest
      rfl
    · rw [ih hrest, join_cons first hrest]
      simp only [String.append_assoc]

theorem splitList_eq_splitOn (cs : List Char) : splitList separator cs = cs.splitOn separator := by
  induction cs with
  | nil => rfl
  | cons c rest ih =>
    have hstep : (c :: rest).splitOn separator = if c == separator then
        [] :: rest.splitOn separator else (rest.splitOn separator).modifyHead (c :: ·) :=
      List.splitOnP_cons_eq_if_modifyHead ..
    obtain ⟨first, others, hsplit⟩ := List.exists_cons_of_ne_nil (splitList_ne_nil separator rest)
    rw [hstep, ← ih, splitList, hsplit]
    by_cases hc : c = separator <;> simp [hc]

/-- The parts of a text, joined again, are the text. -/
theorem join_split (text : String) : join separator (split separator text) = text := by
  apply String.toList_inj.mp
  rw [toList_join, split, List.map_map, splitList_eq_splitOn]
  simp only [Function.comp_def, String.toList_ofList, List.map_id', List.intercalate_splitOn]

/-- A text of one part is that part. -/
theorem eq_of_split_eq_singleton {text part : String} (h : split separator text = [part]) :
    text = part := by
  have hjoin := @join_split separator text
  rw [h] at hjoin
  exact hjoin.symm.trans String.intercalate_singleton

/-- Parts without the separator are those of the joined text. -/
theorem split_join {parts : List String} (h : ∀ part ∈ parts, separator ∉ part.toList)
    (hne : parts ≠ []) : split separator (join separator parts) = parts := by
  rw [split, splitList_eq_splitOn, splitOn_join h hne, List.map_map]
  simp

/-- The parts of two texts with a separator between them. -/
theorem split_append_separator (text text' : String) :
    split separator (text ++ String.singleton separator ++ text') =
      split separator text ++ split separator text' := by
  have hchars : (text ++ String.singleton separator ++ text').toList =
      text.toList ++ separator :: text'.toList := by
    simp [String.toList_append]
  rw [split, hchars, splitList_eq_splitOn, List.splitOn_append_cons_self, List.map_append]
  simp only [split, splitList_eq_splitOn]

theorem split_ne_nil (text : String) : split separator text ≠ [] := by
  simpa [split] using splitList_ne_nil separator text.toList

theorem not_mem_of_mem_splitList {cs part : List Char} (h : part ∈ splitList separator cs) :
    separator ∉ part := by
  induction cs generalizing part with
  | nil =>
    obtain rfl := List.mem_singleton.mp h
    exact List.not_mem_nil
  | cons c rest ih =>
    rw [splitList] at h
    split at h
    · rcases List.mem_cons.mp h with rfl | h
      · exact List.not_mem_nil
      · exact ih h
    · rename_i hc
      cases hsplit : splitList separator rest with
      | nil => exact absurd hsplit (splitList_ne_nil separator rest)
      | cons first others =>
        rw [hsplit] at h ih
        rcases List.mem_cons.mp h with rfl | h
        · rw [List.mem_cons, not_or]
          exact ⟨Ne.symm hc, ih List.mem_cons_self⟩
        · exact ih (List.mem_cons_of_mem _ h)

/-- A text has no part but the empty one just if it has nothing but separators. -/
theorem forall_mem_splitList_iff {cs : List Char} :
    (∀ part ∈ splitList separator cs, part = []) ↔ ∀ c ∈ cs, c = separator := by
  induction cs with
  | nil => simp [splitList]
  | cons c rest ih =>
    by_cases hc : c = separator
    · simp [splitList, hc, ih]
    · obtain ⟨first, others, hsplit⟩ :=
        List.exists_cons_of_ne_nil (splitList_ne_nil separator rest)
      simp [splitList, hc, hsplit]

/-- A part has no separator in it. -/
theorem not_mem_of_mem_split {text part : String} (h : part ∈ split separator text) :
    separator ∉ part.toList := by
  obtain ⟨cs, hcs, rfl⟩ := List.mem_map.mp h
  rw [String.toList_ofList]
  exact not_mem_of_mem_splitList hcs

/-- Texts are joined to the same as their parts. -/
theorem join_flatMap_split (parts : List String) :
    join separator (parts.flatMap (split separator)) = join separator parts := by
  induction parts with
  | nil => rfl
  | cons first rest ih =>
    rw [List.flatMap_cons]
    by_cases hrest : rest = []
    · subst hrest
      rw [List.flatMap_nil, List.append_nil, join_split]
      exact String.intercalate_singleton.symm
    · have hne : rest.flatMap (split separator) ≠ [] := by
        obtain ⟨second, others, rfl⟩ := List.exists_cons_of_ne_nil hrest
        rw [List.flatMap_cons]
        exact List.append_ne_nil_of_left_ne_nil (split_ne_nil second) _
      rw [join_append (split_ne_nil first) hne, join_split, ih, join_cons first hrest]

end ApiEmit.Text
