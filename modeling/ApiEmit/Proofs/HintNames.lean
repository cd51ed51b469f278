/-
ApiEmit.Proofs.HintNames — the names that a type hint is written with.

A type hint uses its own names and those of its parts, at any depth (`Uses`). In its text these are
the words outside of quotes, in their order (`writes_text`): each constructor writes its own names
first and sets them apart from its parts by brackets or commas, and a reference to a declaration,
which stands in quotes, adds none as long as it has no quote in it.
-/
import ApiEmit.Python.Identifier
import ApiEmit.Python.Printer
import Mathlib.Data.List.Basic

namespace ApiEmit.Python

variable {a b : TypeHint} {name : String} {cs ds : List Char} {c : Char}

namespace TypeHint

/-! ## The parts of a type hint -/

/-- The type hints that one is made of. -/
def parts : TypeHint → List TypeHint
  | .list item => [item]
  | .dict value => [value]
  | .optional item => [item]
  | .union items => items
  | _ => []

/-- The names that a type hint has of its own, beside those of its parts. A name in quotes is none
of them. -/
def ownNames : TypeHint → List String
  | .primitive p => [p.text]
  | .list _ => ["List"]
  | .dict _ => ["Dict", "str"]
  | .union _ => ["Union"]
  | .optional _ => ["Optional"]
  | .forward _ => []
  | .none => ["None"]

/-- A name is used in a type hint, at any depth. -/
inductive Uses : TypeHint → String → Prop
  | own {a : TypeHint} {name : String} (h : name ∈ a.ownNames) : Uses a name
  | part {a b : TypeHint} {name : String} (hb : b ∈ a.parts) (h : Uses b name) : Uses a name

/-- What holds of a type hint when it holds of its parts, holds of all. -/
theorem induction_parts {P : TypeHint → Prop} (step : ∀ a, (∀ b ∈ a.parts, P b) → P a)
    (a : TypeHint) : P a := by
  have hsize : ∀ a b : TypeHint, b ∈ a.parts → sizeOf b < sizeOf a := by
    intro a b hb
    cases a with
    | list | dict | optional =>
      rw [List.mem_singleton.mp hb]
      simp
    | union items =>
      have hless := List.sizeOf_lt_of_mem hb
      simp only [parts, TypeHint.union.sizeOf_spec] at hless ⊢
      omega
    | primitive | forward | none => cases hb
  induction hn : sizeOf a using Nat.strongRecOn generalizing a with
  | ind n ih =>
    subst hn
    exact step a fun b hb => ih _ (hsize a b hb) b rfl

theorem walkAll_eq_flatMap (hints : List TypeHint) : walkAll hints = hints.flatMap walk := by
  induction hints with
  | nil => rfl
  | cons first rest ih => rw [walkAll, List.flatMap_cons, ih]

theorem walk_eq (a : TypeHint) : a.walk = a :: a.parts.flatMap walk := by
  cases a <;> simp [walk, parts, walkAll_eq_flatMap]

/-- A name is used where it is the own name of what the walk meets. -/
theorem uses_iff : a.Uses name ↔ ∃ b ∈ a.walk, name ∈ b.ownNames := by
  constructor
  · intro h
    induction h with
    | @own a _ h =>
      rw [walk_eq]
      exact ⟨a, List.mem_cons_self, h⟩
    | @part a b _ hb _ ih =>
      obtain ⟨c, hc, hname⟩ := ih
      rw [walk_eq]
      exact ⟨c, List.mem_cons_of_mem _ (List.mem_flatMap.mpr ⟨b, hb, hc⟩), hname⟩
  · induction a using induction_parts with
    | step a ih =>
      rintro ⟨c, hc, hname⟩
      rw [walk_eq] at hc
      rcases List.mem_cons.mp hc with rfl | hc
      · exact .own hname
      · obtain ⟨b, hb, hc⟩ := List.mem_flatMap.mp hc
        exact .part hb (ih b hb ⟨c, hc, hname⟩)

end TypeHint

/-! ## Words outside of quotes -/

/-- The characters outside of quotes, and the quotes. -/
def unquoted : Bool → List Char → List Char
  | _, [] => []
  | inside, c :: cs =>
    if c = '"' then c :: unquoted (!inside) cs
    else if inside then unquoted inside cs
    else c :: unquoted inside cs

/-- The longest runs of characters that names have. -/
def nameRuns (cs : List Char) : List (List Char) :=
  (cs.splitOnP (! isNameChar ·)).filter (· ≠ [])

/-- The words outside of quotes. -/
def bareNames (cs : List Char) : List String :=
  (nameRuns (unquoted false cs)).map String.ofList

theorem unquoted_append (h : '"' ∉ cs) (rest : List Char) :
    unquoted false (cs ++ rest) = cs ++ unquoted false rest := by
  induction cs with
  | nil => rfl
  | cons c cs ih =>
    obtain ⟨hc, hcs⟩ := not_or.mp (mt List.mem_cons.mpr h)
    simp [unquoted, Ne.symm hc, ih hcs]

/-- Of what stands in quotes nothing but the quotes is left. -/
theorem unquoted_quoted (h : '"' ∉ cs) (rest : List Char) :
    unquoted false ('"' :: (cs ++ '"' :: rest)) = '"' :: '"' :: unquoted false rest := by
  have hinside : unquoted true (cs ++ '"' :: rest) = '"' :: unquoted false rest := by
    induction cs with
    | nil => simp [unquoted]
    | cons c cs ih =>
      obtain ⟨hc, hcs⟩ := not_or.mp (mt List.mem_cons.mpr h)
      simp [unquoted, Ne.symm hc, ih hcs]
  simp [unquoted, hinside]

theorem nameRuns_append_cons (hc : isNameChar c = false) :
    nameRuns (cs ++ c :: ds) = nameRuns cs ++ nameRuns ds := by
  rw [nameRuns, List.splitOnP_append_cons cs ds (by simp [hc]), List.filter_append]
  rfl

/-! ## Texts of type hints -/

/-- In some characters all quotes are closed, and outside of them there are these names. -/
structure Writes (cs : List Char) (names : List String) : Prop where
  closed : ∀ rest, unquoted false (cs ++ rest) = unquoted false cs ++ unquoted false rest
  bareNames_eq : bareNames cs = names

namespace Writes

variable {names names' : List String}

theorem nil : Writes [] [] where
  closed _ := rfl
  bareNames_eq := by simp [bareNames, unquoted, nameRuns]

theorem word (hne : name ≠ "") (h : name.toList.all isNameChar = true) :
    Writes name.toList [name] := by
  rw [List.all_eq_true] at h
  have hquote : '"' ∉ name.toList := fun hmem => absurd (h _ hmem) (by decide)
  have hsame : unquoted false name.toList = name.toList := by
    simpa [unquoted] using unquoted_append hquote []
  constructor
  · intro rest
    rw [unquoted_append hquote, hsame]
  · rw [bareNames, hsame, nameRuns, List.splitOnP_eq_singleton (by simpa using h)]
    simp [hne]

/-- What stands in quotes is no name. -/
theorem quoted (h : '"' ∉ cs) : Writes ('"' :: (cs ++ ['"'])) [] where
  closed rest := by
    have hrest := unquoted_quoted h rest
    have hend := unquoted_quoted h []
    simp only [List.cons_append, List.append_assoc, List.nil_append] at hrest ⊢
    rw [hrest, hend]
    rfl
  bareNames_eq := by
    rw [bareNames, unquoted_quoted h]
    decide

/-- What is no part of a name sets names apart. -/
theorem append_cons (h : Writes cs names) (h' : Writes ds names') (hc : isNameChar c = false)
    (hquote : c ≠ '"') : Writes (cs ++ c :: ds) (names ++ names') where
  closed rest := by
    have hstep : ∀ rest, unquoted false (cs ++ c :: rest) =
        unquoted false cs ++ c :: unquoted false rest := by
      intro rest
      rw [h.closed, unquoted, if_neg hquote]
      rfl
    rw [List.append_assoc, List.cons_append, hstep, hstep, h'.closed, List.append_assoc,
      List.cons_append]
  bareNames_eq := by
    rw [bareNames, h.closed, unquoted, if_neg hquote, if_neg (by decide), nameRuns_append_cons hc,
      List.map_append, ← h.bareNames_eq, ← h'.bareNames_eq]
    rfl

theorem cons (h : Writes ds names) (hc : isNameChar c = false) (hquote : c ≠ '"') :
    Writes (c :: ds) names :=
  nil.append_cons h hc hquote

/-- A word in front of brackets. -/
theorem bracketed (h : Writes ds names) (head : String) (hne : head ≠ "")
    (hhead : head.toList.all isNameChar = true) :
    Writes (head.toList ++ '[' :: (ds ++ [']'])) (head :: names) := by
  have hclosed := h.append_cons nil (c := ']') (by decide) (by decide)
  rw [List.append_nil] at hclosed
  exact (word hne hhead).append_cons hclosed (by decide) (by decide)

theorem commaList {namesOf : String → List String} {items : List String}
    (h : ∀ item ∈ items, Writes item.toList (namesOf item)) :
    Writes (commaList items).toList (items.flatMap namesOf) := by
  induction items with
  | nil => exact nil
  | cons item rest ih =>
    have hitem := h item List.mem_cons_self
    have hrest := ih fun a ha => h a (List.mem_cons_of_mem _ ha)
    cases rest with
    | nil => simpa [Python.commaList] using hitem
    | cons next rest =>
      have hboth := hitem.append_cons (hrest.cons (c := ' ') (by decide) (by decide))
        (c := ',') (by decide) (by decide)
      simpa [Python.commaList, String.intercalate_cons_cons] using hboth

end Writes

theorem texts_eq_map (hints : List TypeHint) : TypeHint.texts hints = hints.map TypeHint.text := by
  induction hints with
  | nil => rfl
  | cons first rest ih => rw [TypeHint.texts, ih, List.map_cons]

/-- The names that a type hint refers to can stand in quotes. -/
def Quotable (a : TypeHint) : Prop :=
  ∀ name, TypeHint.forward name ∈ a.walk → '"' ∉ name.toList

theorem Quotable.part (h : Quotable a) (hb : b ∈ a.parts) : Quotable b := by
  intro name hname
  apply h
  rw [TypeHint.walk_eq]
  exact List.mem_cons_of_mem _ (List.mem_flatMap.mpr ⟨b, hb, hname⟩)

/-- The names of a type hint stand in its text in their order, its own ones first. -/
theorem writes_text (h : Quotable a) :
    Writes a.text.toList (a.ownNames ++ a.parts.flatMap fun b => bareNames b.text.toList) := by
  induction a using TypeHint.induction_parts with
  | step a ih =>
    have hpart : ∀ b ∈ a.parts, Writes b.text.toList (bareNames b.text.toList) := fun b hb =>
      ⟨(ih b hb (h.part hb)).closed, rfl⟩
    cases a with
    | primitive p =>
      have hword : p.text ≠ "" ∧ p.text.toList.all isNameChar = true := by
        cases p <;> decide
      simpa [TypeHint.text, TypeHint.ownNames, TypeHint.parts] using Writes.word hword.1 hword.2
    | list item =>
      have hitem := hpart item List.mem_cons_self
      simpa [TypeHint.text, TypeHint.ownNames, TypeHint.parts] using
        hitem.bracketed "List" (by decide) (by decide)
    | dict value =>
      have hkey : Writes "str".toList ["str"] := .word (by decide) (by decide)
      have hvalue := (hpart value List.mem_cons_self).cons (c := ' ') (by decide) (by decide)
      have hinner := hkey.append_cons hvalue (c := ',') (by decide) (by decide)
      simpa [TypeHint.text, TypeHint.ownNames, TypeHint.parts] using
        hinner.bracketed "Dict" (by decide) (by decide)
    | union items =>
      have hitems : Writes (commaList (items.map TypeHint.text)).toList
          ((items.map TypeHint.text).flatMap fun s => bareNames s.toList) := by
        apply Writes.commaList
        intro s hs
        obtain ⟨item, hitem, rfl⟩ := List.mem_map.mp hs
        exact hpart item hitem
      simpa [TypeHint.text, TypeHint.ownNames, TypeHint.parts, texts_eq_map, List.flatMap_map]
        using hitems.bracketed "Union" (by decide) (by decide)
    | optional item =>
      have hitem := hpart item List.mem_cons_self
      simpa [TypeHint.text, TypeHint.ownNames, TypeHint.parts] using
        hitem.bracketed "Optional" (by decide) (by decide)
    | forward name =>
      have hname : '"' ∉ name.toList := h name (by simp [TypeHint.walk])
      simpa [TypeHint.text, TypeHint.ownNames, TypeHint.parts] using Writes.quoted hname
    | none =>
      have hword : Writes "None".toList ["None"] := .word (by decide) (by decide)
      simpa [TypeHint.text, TypeHint.ownNames, TypeHint.parts] using hword

/-- **The words of a type hint outside of quotes are the names it uses.** -/
theorem mem_bareNames_text_iff (h : Quotable a) :
    name ∈ bareNames a.text.toList ↔ a.Uses name := by
  induction a using TypeHint.induction_parts with
  | step a ih =>
    rw [(writes_text h).bareNames_eq, List.mem_append, List.mem_flatMap]
    constructor
    · rintro (hown | ⟨b, hb, hname⟩)
      · exact .own hown
      · exact .part hb ((ih b hb (h.part hb)).mp hname)
    · rintro (hown | ⟨hb, huses⟩)
      · exact .inl hown
      · exact .inr ⟨_, hb, (ih _ hb (h.part hb)).mpr huses⟩

/-- A declaration called like an import is no use of it. -/
example : bareNames (TypeHint.optional (.list (.forward "datetime"))).text.toList =
    ["Optional", "List"] := by
  decide

end ApiEmit.Python
