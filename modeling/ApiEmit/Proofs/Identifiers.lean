/-
ApiEmit.Proofs.Identifiers — what a name is made to can be used as a name.

Three changes make an identifier: characters are replaced, a digit in front gets an underscore
before it, and a keyword gets one behind it. Each is checked for what the others leave: after the
first two the characters are right (`IsNameChars`), and the third keeps them so, since no keyword
is another one with an underscore. `toList_identifier` says the same three changes in one equation,
on the characters as they are spelled, so that a name is changed only as far as it has to be.
-/
import ApiEmit.Python.Identifier
import Mathlib.Data.List.Basic

namespace ApiEmit.Python

/-- Characters that can stand for a name: one that a name can start with, and more. -/
def IsNameChars : List Char → Prop
  | [] => False
  | c :: rest => isNameStart c = true ∧ ∀ d ∈ rest, isNameChar d = true

theorem isIdentifier_iff {name : String} :
    isIdentifier name = true ↔ IsNameChars name.toList ∧ name ∉ keywords := by
  unfold isIdentifier
  cases name.toList with
  | nil => simp [IsNameChars]
  | cons c rest => simp [IsNameChars, List.all_eq_true]

/-- A character of a name that is no digit can start one. -/
theorem isNameStart_of_isNameChar {c : Char} (h : isNameChar c = true)
    (hdigit : c.isDigit = false) : isNameStart c = true := by
  simpa [isNameChar, isNameStart, Char.isAlphanum, hdigit] using h

theorem isNameChar_replace (c : Char) : isNameChar (if isNameChar c then c else '_') = true := by
  split
  · assumption
  · rfl

/-- Characters that are left as they are or replaced can stand for a name, with an underscore in
front of a digit. -/
theorem isNameChars_identifierChars {cs : List Char} (h : cs ≠ []) :
    IsNameChars (identifierChars cs) := by
  obtain ⟨c, rest, rfl⟩ := List.exists_cons_of_ne_nil h
  have hrest : ∀ d ∈ rest.map (fun c => if isNameChar c then c else '_'), isNameChar d = true := by
    intro d hd
    obtain ⟨e, _, rfl⟩ := List.mem_map.mp hd
    exact isNameChar_replace e
  have hfirst := isNameChar_replace c
  unfold identifierChars
  rw [List.map_cons]
  generalize (if isNameChar c then c else '_') = first at hfirst ⊢
  by_cases hdigit : first.isDigit = true
  · simp only [hdigit, if_true]
    exact ⟨rfl, List.forall_mem_cons.mpr ⟨hfirst, hrest⟩⟩
  · simp only [hdigit]
    exact ⟨isNameStart_of_isNameChar hfirst (Bool.eq_false_iff.mpr hdigit), hrest⟩

theorem IsNameChars.append_underscore {cs : List Char} (h : IsNameChars cs) :
    IsNameChars (cs ++ ['_']) := by
  cases cs with
  | nil => exact absurd h id
  | cons c rest =>
    refine ⟨h.1, fun d hd => ?_⟩
    rcases List.mem_append.mp hd with hd | hd
    · exact h.2 d hd
    · rw [List.mem_singleton.mp hd]
      rfl

/-- A keyword with an underscore behind it is no keyword. -/
theorem append_underscore_not_mem_keywords : ∀ word ∈ keywords, word ++ "_" ∉ keywords := by
  decide

/-- Every name is made to an identifier. -/
theorem isIdentifier_identifier (name : String) : isIdentifier (identifier name) = true := by
  rw [isIdentifier_iff]
  unfold identifier
  split
  · exact ⟨by simp [IsNameChars, isNameStart, isNameChar], by decide⟩
  · rename_i hne
    have hchars : IsNameChars (identifierChars name.toList) :=
      isNameChars_identifierChars (by simpa using hne)
    dsimp only
    split
    · rename_i hkeyword
      have hmem := List.contains_iff_mem.mp hkeyword
      refine ⟨?_, append_underscore_not_mem_keywords _ hmem⟩
      simpa [String.toList_append] using hchars.append_underscore
    · rename_i hkeyword
      refine ⟨by simpa using hchars, fun hmem => hkeyword ?_⟩
      exact List.contains_iff_mem.mpr hmem

variable {name : String} {cs : List Char}

/-! ## Spelling -/

/-- The character that stands for one in an identifier. -/
def nameChar (c : Char) : Char := if isNameChar c then c else '_'

/-- The characters of a name with those replaced that identifiers do not have. -/
def spelling (cs : List Char) : List Char := cs.map nameChar

/-- Whether a digit stands in front. -/
def StartsWithDigit (cs : List Char) : Prop := cs.head?.any Char.isDigit = true

instance (cs : List Char) : Decidable (StartsWithDigit cs) :=
  inferInstanceAs (Decidable (_ = true))

theorem isDigit_nameChar (c : Char) : (nameChar c).isDigit = c.isDigit := by
  unfold nameChar
  split
  · rfl
  · rename_i hc
    have hdigit : c.isDigit = false := by
      simp only [isNameChar, Char.isAlphanum, Bool.or_eq_true, not_or, Bool.not_eq_true] at hc
      exact hc.1.2
    rw [hdigit]
    decide

theorem startsWithDigit_spelling_iff : StartsWithDigit (spelling cs) ↔ StartsWithDigit cs := by
  cases cs with
  | nil => simp [spelling]
  | cons c rest => simp [StartsWithDigit, spelling, isDigit_nameChar]

theorem spelling_eq_self (h : ∀ c ∈ cs, isNameChar c = true) : spelling cs = cs := by
  have hsame : ∀ c ∈ cs, nameChar c = c := fun c hc => if_pos (h c hc)
  rw [spelling, List.map_congr_left hsame, List.map_id']

/-- Where no underscore is spelled, nothing was replaced. -/
theorem spelling_eq_of_not_mem (h : '_' ∉ spelling cs) : spelling cs = cs := by
  apply spelling_eq_self
  intro c hc
  by_contra hchar
  apply h
  rw [spelling, List.mem_map]
  exact ⟨c, hc, if_neg hchar⟩

theorem identifierChars_eq (cs : List Char) :
    identifierChars cs = if StartsWithDigit cs then '_' :: spelling cs else spelling cs := by
  cases cs with
  | nil => rfl
  | cons c rest =>
    have hspelled : (c :: rest).map (fun c => if isNameChar c then c else '_') =
        nameChar c :: spelling rest := rfl
    simp [identifierChars, hspelled, StartsWithDigit, spelling, isDigit_nameChar]

/-! ## Keywords -/

/-- A keyword is made of letters, without an underscore. -/
theorem keyword_chars : ∀ word ∈ keywords, word ≠ "" ∧ '_' ∉ word.toList ∧
    ¬ StartsWithDigit word.toList ∧ ∀ c ∈ word.toList, isNameChar c = true := by
  simp only [← List.all_eq_true]
  decide

/-- Only a keyword is spelled like one. -/
theorem identifierChars_mem_keywords_iff :
    String.ofList (identifierChars name.toList) ∈ keywords ↔ name ∈ keywords := by
  constructor
  · intro h
    obtain ⟨_, hunderscore, _, _⟩ := keyword_chars _ h
    rw [identifierChars_eq] at h hunderscore
    split_ifs at h hunderscore with hdigit
    · simp at hunderscore
    · rw [String.toList_ofList] at hunderscore
      rwa [spelling_eq_of_not_mem hunderscore, String.ofList_toList] at h
  · intro h
    obtain ⟨_, _, hdigit, hchars⟩ := keyword_chars _ h
    rwa [identifierChars_eq, if_neg hdigit, spelling_eq_self hchars, String.ofList_toList]

/-! ## The characters of an identifier -/

theorem toList_identifier (name : String) : (identifier name).toList =
    if name = "" then "_empty".toList
    else if name ∈ keywords then name.toList ++ ['_']
    else if StartsWithDigit name.toList then '_' :: spelling name.toList
    else spelling name.toList := by
  unfold identifier
  by_cases hne : name = ""
  · rw [if_pos hne, if_pos hne]
  simp only [hne, if_false, List.contains_iff_mem, identifierChars_mem_keywords_iff]
  by_cases hword : name ∈ keywords
  · obtain ⟨_, _, hdigit, hchars⟩ := keyword_chars _ hword
    simp [hword, identifierChars_eq, hdigit, spelling_eq_self hchars]
  · simp [hword, identifierChars_eq]

/-- A character that can start a name can stand in it. -/
theorem isNameChar_of_isNameStart {c : Char} (h : isNameStart c = true) : isNameChar c = true := by
  simp only [isNameStart, isNameChar, Char.isAlphanum, Bool.or_eq_true] at h ⊢
  exact h.imp_left .inl

/-- A digit does not start a name. -/
theorem isDigit_eq_false_of_isNameStart {c : Char} (h : isNameStart c = true) :
    c.isDigit = false := by
  rw [Bool.eq_false_iff]
  intro hdigit
  rw [isNameStart, Bool.or_eq_true_iff] at h
  rcases h with hletter | hunderscore
  · have hle : c.val ≤ '9'.val := of_decide_eq_true (Bool.and_eq_true_iff.mp hdigit).2
    have hge : 'A'.val ≤ c.val := by
      rcases Bool.or_eq_true_iff.mp hletter with hupper | hlower
      · exact (of_decide_eq_true hupper).1
      · exact UInt32.le_trans (by decide) (of_decide_eq_true (Bool.and_eq_true_iff.mp hlower).1)
    exact absurd (UInt32.le_trans hge hle) (by decide)
  · rw [eq_of_beq hunderscore] at hdigit
    exact absurd hdigit (by decide)

/-- A name that can be used as it is stays as it is. -/
theorem identifier_eq_self (h : isIdentifier name = true) : identifier name = name := by
  obtain ⟨hchars, hword⟩ := isIdentifier_iff.mp h
  have hne : name ≠ "" := by
    rintro rfl
    exact hchars
  obtain ⟨c, rest, hname⟩ : ∃ c rest, name.toList = c :: rest :=
    List.exists_cons_of_ne_nil (by simpa using hne)
  rw [hname] at hchars
  have hdigit : ¬ StartsWithDigit name.toList := by
    simp [StartsWithDigit, hname, isDigit_eq_false_of_isNameStart hchars.1]
  have hall : ∀ d ∈ name.toList, isNameChar d = true := by
    rw [hname]
    exact List.forall_mem_cons.mpr ⟨isNameChar_of_isNameStart hchars.1, hchars.2⟩
  apply String.toList_inj.mp
  rw [toList_identifier, if_neg hne, if_neg hword, if_neg hdigit, spelling_eq_self hall]

/-- A name stays as it is just if it can be used. -/
theorem identifier_eq_self_iff : identifier name = name ↔ isIdentifier name = true := by
  constructor
  · intro heq
    rw [← heq]
    exact isIdentifier_identifier name
  · exact identifier_eq_self

/-- A word without underscores is made of no other name. -/
theorem identifier_eq_iff_of_not_mem {word : String} (hword : isIdentifier word = true)
    (h : '_' ∉ word.toList) : identifier name = word ↔ name = word := by
  constructor
  · intro heq
    have hchars := toList_identifier name
    rw [heq] at hchars
    split_ifs at hchars with hempty hkeyword hdigit
    · exact absurd (hchars ▸ List.mem_cons_self) h
    · exact absurd (hchars ▸ List.mem_append_right _ (List.mem_singleton_self _)) h
    · exact absurd (hchars ▸ List.mem_cons_self) h
    · rw [hchars] at h
      exact String.toList_inj.mp (hchars.trans (spelling_eq_of_not_mem h)).symm
  · rintro rfl
    exact identifier_eq_self hword

/-- The characters of a name with an underscore in front of a digit and one behind a keyword. -/
theorem toList_identifier_eq_append (hne : name ≠ "") : (identifier name).toList =
    (if StartsWithDigit name.toList then ['_'] else []) ++ spelling name.toList ++
      (if name ∈ keywords then ['_'] else []) := by
  rw [toList_identifier, if_neg hne]
  by_cases hword : name ∈ keywords
  · obtain ⟨_, _, hdigit, hchars⟩ := keyword_chars _ hword
    rw [if_pos hword, if_pos hword, if_neg hdigit, spelling_eq_self hchars, List.nil_append]
  · rw [if_neg hword, if_neg hword, List.append_nil]
    split_ifs
    · rfl
    · rfl

/-- **Names are made identifiers, and no more than that.** What a name is made to can be used, so it
is not changed again, and a name is changed just if it cannot be used. Then a character is replaced
only if identifiers do not have it, and an underscore is added only in front of a digit or behind a
keyword; the empty name is given a name. -/
theorem identifier_usable_minimal (name : String) :
    isIdentifier (identifier name) = true ∧
      (identifier name = name ↔ isIdentifier name = true) ∧
      identifier (identifier name) = identifier name ∧
      (identifier name).toList =
        if name = "" then "_empty".toList
        else (if StartsWithDigit name.toList then ['_'] else []) ++ spelling name.toList ++
          (if name ∈ keywords then ['_'] else []) := by
  have husable := isIdentifier_identifier name
  refine ⟨husable, identifier_eq_self_iff, identifier_eq_self husable, ?_⟩
  by_cases hempty : name = ""
  · rw [if_pos hempty, hempty]
    rfl
  · rw [if_neg hempty, toList_identifier_eq_append hempty]

/-- The three changes do not get in each other's way. -/
example : ["2fa", "from", "class-name", "from-", "_", "9"].map identifier =
    ["_2fa", "from_", "class_name", "from_", "_", "_9"] := by
  decide

end ApiEmit.Python
