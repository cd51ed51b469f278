/-
ApiEmit.Proofs.TableCells — which values stay in their cell of a table.

A row is read by its bars: one that no backslash escapes sets two cells apart, and a backslash that
is escaped itself escapes nothing, so what counts is whether the number of backslashes in front of a
bar is odd. A cell puts one more in front of each bar, whatever stands there, and so a bar stays
inside just if there was an even number before (`barsWhere_cellChars`); of line endings it takes out
line feeds, with a carriage return or without, but no carriage return alone. A table of properties
or parameters has as many cells in each line as in its head just if all that is shown in it can be
held by cells in this sense (`tables_keepCells`).
-/
import ApiEmit.Reference.Document
import Mathlib.Algebra.BigOperators.Group.List.Basic
import Mathlib.Algebra.Ring.Parity
import Mathlib.Data.List.Induction

namespace ApiEmit.Reference

namespace Markdown

variable {cs ds front back : List Char} {c : Char} {escaped wanted : Bool} {text value : String}

/-! ## Reading a row -/

/-- Whether what follows a character is escaped: by a backslash that is not escaped itself. -/
def escapesNext (escaped : Bool) (c : Char) : Bool := c == '\\' && !escaped

/-- The parts of a text between the bars that are not escaped, at least one. -/
def splitCells : Bool → List Char → List (List Char)
  | _, [] => [[]]
  | escaped, c :: rest =>
    if c = '|' ∧ escaped = false then [] :: splitCells false rest
    else (splitCells (escapesNext escaped c) rest).modifyHead (c :: ·)

/-- The cells of a row, which has a bar on either side. -/
def readRow (line : String) : List String :=
  ((splitCells false line.toList).tail.dropLast).map String.ofList

/-- A text without line endings. -/
def OneLine (text : String) : Prop := '\n' ∉ text.toList ∧ '\r' ∉ text.toList

instance (text : String) : Decidable (OneLine text) :=
  inferInstanceAs (Decidable (_ ∧ _))

/-- Lines that are a table, with an empty line behind them: each is one line, and has as many cells
as the head. -/
def IsTable (lines : List String) : Prop :=
  ∃ head rows, lines = block (head :: rows) ∧ ∀ line ∈ head :: rows,
    OneLine line ∧ (readRow line).length = (readRow head).length

/-- How many backslashes some characters end in. -/
def closingSlashes (cs : List Char) : Nat := (cs.reverse.takeWhile (· == '\\')).length

/-- A text that stays in its cell: without line endings, and with an odd number of backslashes right
in front of each bar. -/
structure StaysInCell (text : String) : Prop where
  oneLine : OneLine text
  bars : ∀ front back, text.toList = front ++ '|' :: back → Odd (closingSlashes front)

/-- A value that a cell can hold: each of its carriage returns has a line feed behind it, and each
of its bars an even number of backslashes right in front. -/
structure Holdable (value : String) : Prop where
  returns : ∀ front back, value.toList = front ++ '\r' :: back → back.head? = some '\n'
  bars : ∀ front back, value.toList = front ++ '|' :: back → Even (closingSlashes front)

/-! ## Backslashes in front of a bar -/

theorem closingSlashes_append_singleton (cs : List Char) (c : Char) :
    closingSlashes (cs ++ [c]) = if c = '\\' then closingSlashes cs + 1 else 0 := by
  unfold closingSlashes
  rw [List.reverse_append, List.reverse_singleton, List.singleton_append, List.takeWhile_cons]
  by_cases hc : c = '\\' <;> simp [hc]

/-- What follows is escaped by an odd number of backslashes. -/
theorem foldl_escapesNext (cs : List Char) :
    cs.foldl escapesNext false = decide (Odd (closingSlashes cs)) := by
  induction cs using List.reverseRecOn with
  | nil => rfl
  | append_singleton cs c ih =>
    rw [List.foldl_append, ih, closingSlashes_append_singleton]
    by_cases hc : c = '\\'
    · simp [escapesNext, hc, Nat.even_add_one, ← Nat.not_even_iff_odd]
    · simp [escapesNext, hc]

/-- How many bars of a text are escaped, or how many are not. -/
def barsWhere (wanted : Bool) : Bool → List Char → Nat
  | _, [] => 0
  | escaped, c :: rest =>
    (if c = '|' ∧ escaped = wanted then 1 else 0) + barsWhere wanted (escapesNext escaped c) rest

theorem barsWhere_append (cs ds : List Char) : barsWhere wanted escaped (cs ++ ds) =
    barsWhere wanted escaped cs + barsWhere wanted (cs.foldl escapesNext escaped) ds := by
  induction cs generalizing escaped with
  | nil => simp [barsWhere]
  | cons c rest ih => simp only [List.cons_append, barsWhere, ih, List.foldl_cons, Nat.add_assoc]

theorem barsWhere_eq_zero_iff : barsWhere wanted escaped cs = 0 ↔
    ∀ front back, cs = front ++ '|' :: back → front.foldl escapesNext escaped ≠ wanted := by
  induction cs generalizing escaped with
  | nil => simp [barsWhere]
  | cons c rest ih =>
    rw [barsWhere, Nat.add_eq_zero_iff, ih]
    constructor
    · rintro ⟨hfirst, hrest⟩ front back h
      rcases List.cons_eq_append_iff.mp h with ⟨rfl, hbar⟩ | ⟨front, rfl, hback⟩
      · rintro rfl
        rw [← (List.cons.inj hbar).1, List.foldl_nil] at hfirst
        simp at hfirst
      · exact hrest front back hback
    · intro h
      constructor
      · refine if_neg ?_
        rintro ⟨rfl, rfl⟩
        exact h [] rest rfl rfl
      · intro front back hback
        exact h (c :: front) back (by rw [hback, List.cons_append])

theorem oddBars_iff : barsWhere false false cs = 0 ↔
    ∀ front back, cs = front ++ '|' :: back → Odd (closingSlashes front) := by
  simp [barsWhere_eq_zero_iff, foldl_escapesNext]

theorem evenBars_iff : barsWhere true false cs = 0 ↔
    ∀ front back, cs = front ++ '|' :: back → Even (closingSlashes front) := by
  simp [barsWhere_eq_zero_iff, foldl_escapesNext]

theorem staysInCell_iff :
    StaysInCell text ↔ OneLine text ∧ barsWhere false false text.toList = 0 := by
  rw [oddBars_iff]
  exact ⟨fun h => ⟨h.oneLine, h.bars⟩, fun h => ⟨h.1, h.2⟩⟩

instance (text : String) : Decidable (StaysInCell text) :=
  decidable_of_iff _ staysInCell_iff.symm

/-! ## Values in a cell -/

/-- In a cell just those bars are not escaped that have been escaped before. -/
theorem barsWhere_cellChars (escaped : Bool) (cs : List Char) :
    barsWhere false escaped (cellChars cs) = barsWhere true escaped cs := by
  fun_induction cellChars cs generalizing escaped with
  | case1 => rfl
  | case2 rest ih => simp [barsWhere, escapesNext, ih]
  | case3 rest ih => simp [barsWhere, escapesNext, ih]
  | case4 rest ih => cases escaped <;> simp [barsWhere, escapesNext, ih]
  | case5 c rest _ _ hbar ih =>
    have hc : c ≠ '|' := hbar
    simp [barsWhere, ih, hc]

theorem feed_not_mem_cellChars (cs : List Char) : '\n' ∉ cellChars cs := by
  fun_induction cellChars cs with
  | case1 => exact List.not_mem_nil
  | case2 rest ih => simp [ih]
  | case3 rest ih => simp [ih]
  | case4 rest ih => simp [ih]
  | case5 c rest _ hfeed _ ih => simp [ih, Ne.symm hfeed]

/-- Whether each carriage return has a line feed behind it. -/
theorem return_not_mem_cellChars_iff : '\r' ∉ cellChars cs ↔
    ∀ front back, cs = front ++ '\r' :: back → back.head? = some '\n' := by
  have hcons : ∀ (c : Char) (rest : List Char),
      (∀ front back, c :: rest = front ++ '\r' :: back → back.head? = some '\n') ↔
        (c = '\r' → rest.head? = some '\n') ∧
          ∀ front back, rest = front ++ '\r' :: back → back.head? = some '\n' := by
    intro c rest
    constructor
    · intro h
      refine ⟨fun hc => h [] rest (by rw [hc, List.nil_append]), fun front back hback => ?_⟩
      exact h (c :: front) back (by rw [hback, List.cons_append])
    · rintro ⟨hfirst, hrest⟩ front back h
      rcases List.cons_eq_append_iff.mp h with ⟨rfl, hreturn⟩ | ⟨front, rfl, hback⟩
      · obtain ⟨rfl, rfl⟩ := List.cons.inj hreturn
        exact hfirst rfl
      · exact hrest front back hback
  fun_induction cellChars cs with
  | case1 => simp
  | case2 rest ih => simp [hcons, ih]
  | case3 rest ih => simp [hcons, ih]
  | case4 rest ih => simp [hcons, ih]
  | case5 c rest hreturn _ _ ih =>
    rw [hcons, List.mem_cons, not_or]
    refine and_congr ⟨fun hne heq => absurd heq.symm hne, ?_⟩ ih
    rintro hfirst rfl
    obtain ⟨others, rfl⟩ := List.head?_eq_some_iff.mp (hfirst rfl)
    exact hreturn others rfl rfl

/-- **A cell holds a value just if no carriage return in it stands alone and no bar has an odd
number of backslashes in front.** -/
theorem staysInCell_cell_iff : StaysInCell (cell value) ↔ Holdable value := by
  rw [staysInCell_iff, OneLine, cell, String.toList_ofList, barsWhere_cellChars, evenBars_iff,
    return_not_mem_cellChars_iff]
  constructor
  · rintro ⟨⟨_, hreturns⟩, hbars⟩
    exact ⟨hreturns, hbars⟩
  · rintro ⟨hreturns, hbars⟩
    exact ⟨⟨feed_not_mem_cellChars _, hreturns⟩, hbars⟩

/-- A value with no carriage returns and no backslashes can be held. -/
theorem holdable_of_not_mem (hreturn : '\r' ∉ value.toList) (hslash : '\\' ∉ value.toList) :
    Holdable value where
  returns front back h := absurd (h ▸ List.mem_append_right _ List.mem_cons_self) hreturn
  bars front back h := by
    have hfront : '\\' ∉ front := fun hmem => hslash (h ▸ List.mem_append_left _ hmem)
    have hnone : closingSlashes front = 0 := by
      rcases List.eq_nil_or_concat' front with rfl | ⟨others, c, rfl⟩
      · rfl
      · have hc : c ≠ '\\' := by
          rintro rfl
          exact hfront (List.mem_append_right _ (List.mem_singleton_self _))
        rw [closingSlashes_append_singleton, if_neg hc]
    rw [hnone]
    exact Even.zero

/-- Setting a text as code changes nothing about it. -/
theorem staysInCell_code_iff : StaysInCell (code text) ↔ StaysInCell text := by
  simp [staysInCell_iff, OneLine, code, barsWhere, barsWhere_append, escapesNext]

/-! ## Rows -/

/-- A cell as it stands in its row. -/
def padded (text : String) : List Char := ' ' :: (text.toList ++ [' '])

theorem toList_row (first : String) (rest : List String) : (row (first :: rest)).toList =
    '|' :: (first :: rest).flatMap fun text => padded text ++ ['|'] := by
  induction rest generalizing first with
  | nil => simp [row, padded]
  | cons second rest ih =>
    have hbar : " | ".toList = ' ' :: "| ".toList := rfl
    have hrest := ih second
    simp only [row, String.toList_append, String.intercalate_cons_cons, List.append_assoc, hbar,
      List.cons_append] at hrest ⊢
    rw [hrest, List.flatMap_cons]
    simp [padded]

theorem splitCells_ne_nil (escaped : Bool) (cs : List Char) : splitCells escaped cs ≠ [] := by
  induction cs generalizing escaped with
  | nil => simp [splitCells]
  | cons c rest ih =>
    rw [splitCells]
    split
    · simp
    · simpa using ih _

/-- A bar that is not escaped ends one part and begins the next. -/
theorem splitCells_append_bar (h : cs.foldl escapesNext escaped = false) (ds : List Char) :
    splitCells escaped (cs ++ '|' :: ds) = splitCells escaped cs ++ splitCells false ds := by
  induction cs generalizing escaped with
  | nil =>
    obtain rfl : escaped = false := h
    simp [splitCells]
  | cons c rest ih =>
    rw [List.cons_append, splitCells, splitCells]
    split
    · rename_i hbar
      have hstep : escapesNext escaped c = false := by rw [hbar.1, hbar.2]; rfl
      rw [List.foldl_cons, hstep] at h
      rw [ih h, List.cons_append]
    · rw [ih h]
      obtain ⟨part, parts, hparts⟩ :=
        List.exists_cons_of_ne_nil (splitCells_ne_nil (escapesNext escaped c) rest)
      rw [hparts]
      rfl

theorem length_splitCells (escaped : Bool) (cs : List Char) :
    (splitCells escaped cs).length = barsWhere false escaped cs + 1 := by
  induction cs generalizing escaped with
  | nil => rfl
  | cons c rest ih =>
    rw [splitCells, barsWhere]
    split
    · rename_i hbar
      rw [List.length_cons, ih, hbar.1, hbar.2]
      simp [escapesNext, Nat.add_comm]
    · rw [List.length_modifyHead, ih, Nat.zero_add]

/-- A text that has no bars but escaped ones is one part. -/
theorem splitCells_eq_singleton (h : barsWhere false escaped cs = 0) :
    splitCells escaped cs = [cs] := by
  induction cs generalizing escaped with
  | nil => rfl
  | cons c rest ih =>
    rw [barsWhere, Nat.add_eq_zero_iff] at h
    have hbar : ¬ (c = '|' ∧ escaped = false) := fun hbar => by simp [hbar] at h
    rw [splitCells, if_neg hbar, ih h.2]
    rfl

theorem barsWhere_padded (text : String) :
    barsWhere false false (padded text) = barsWhere false false text.toList := by
  simp [padded, barsWhere, barsWhere_append, escapesNext]

/-- A row is read as what its cells are read as, one after the other. -/
theorem readRow_row (first : String) (rest : List String) : readRow (row (first :: rest)) =
    ((first :: rest).flatMap fun text => splitCells false (padded text)).map String.ofList := by
  have hpadded : ∀ text, (padded text).foldl escapesNext false = false := fun text => by
    simp [padded, escapesNext]
  have hcells : ∀ cells : List String,
      splitCells false (cells.flatMap fun text => padded text ++ ['|']) =
        (cells.flatMap fun text => splitCells false (padded text)) ++ [[]] := by
    intro cells
    induction cells with
    | nil => rfl
    | cons text cells ih =>
      rw [List.flatMap_cons, List.append_assoc, List.singleton_append,
        splitCells_append_bar (hpadded text), ih, List.flatMap_cons, List.append_assoc]
  rw [readRow, toList_row, splitCells, if_pos ⟨rfl, rfl⟩, hcells, List.tail_cons,
    List.dropLast_concat]

/-- These are its cells, and one more for each bar in them that is not escaped. -/
theorem length_readRow_row (first : String) (rest : List String) :
    (readRow (row (first :: rest))).length = (first :: rest).length +
      ((first :: rest).map fun text => barsWhere false false text.toList).sum := by
  rw [readRow_row, List.length_map, List.length_flatMap]
  simp only [length_splitCells, barsWhere_padded, List.sum_map_add]
  simp [Nat.add_comm]

theorem oneLine_row_iff (first : String) (rest : List String) :
    OneLine (row (first :: rest)) ↔ ∀ text ∈ first :: rest, OneLine text := by
  have hchar : ∀ c, c ≠ '|' → c ≠ ' ' →
      (c ∉ (row (first :: rest)).toList ↔ ∀ text ∈ first :: rest, c ∉ text.toList) := by
    intro c hbar hspace
    simp only [toList_row, List.mem_cons, List.mem_flatMap, padded, List.mem_append, hbar, hspace,
      List.not_mem_nil, or_false, false_or, not_exists, not_and]
  simp only [OneLine, hchar '\n' (by decide) (by decide), hchar '\r' (by decide) (by decide),
    forall_and]

/-- **A row is one line, read as its cells, just if all texts stay in their cells.** -/
theorem row_holds_iff (first : String) (rest : List String) :
    OneLine (row (first :: rest)) ∧
        (readRow (row (first :: rest))).length = (first :: rest).length ↔
      ∀ text ∈ first :: rest, StaysInCell text := by
  rw [oneLine_row_iff, length_readRow_row, Nat.add_eq_left, List.sum_eq_zero_iff_forall_eq_nat,
    List.forall_mem_map]
  simp only [staysInCell_iff, forall_and]

/-- Then it is read as the cells that were written. -/
theorem readRow_row_of_staysInCell {first : String} {rest : List String}
    (h : ∀ text ∈ first :: rest, StaysInCell text) :
    readRow (row (first :: rest)) =
      (first :: rest).map fun text => String.ofList (padded text) := by
  have hwhole : ∀ text ∈ first :: rest, splitCells false (padded text) = [padded text] := by
    intro text htext
    apply splitCells_eq_singleton
    rw [barsWhere_padded]
    exact (staysInCell_iff.mp (h text htext)).2
  rw [readRow_row, List.flatMap_congr hwhole, List.map_flatMap, List.map_eq_flatMap]
  rfl

/-! ## Tables -/

/-- Rows below a head of titles, as many texts in each as there are titles, are a table just if all
these texts stay in their cells. -/
theorem isTable_iff {title : String} {titles : List String} {rows : List (List String)}
    (htitles : ∀ text ∈ title :: titles, StaysInCell text)
    (hrows : ∀ cells ∈ rows, cells.length = (title :: titles).length) :
    IsTable (block (row (title :: titles) :: rule (title :: titles).length :: rows.map row)) ↔
      ∀ cells ∈ rows, ∀ text ∈ cells, StaysInCell text := by
  obtain ⟨hline, hhead⟩ := (row_holds_iff title titles).mpr htitles
  have hcells : ∀ cells : List String, cells.length = (title :: titles).length →
      (OneLine (row cells) ∧
          (readRow (row cells)).length = (readRow (row (title :: titles))).length ↔
        ∀ text ∈ cells, StaysInCell text) := by
    intro cells hlength
    obtain ⟨first, rest, rfl⟩ := List.exists_cons_of_length_eq_add_one hlength
    rw [hhead, ← hlength]
    exact row_holds_iff first rest
  have hdashes : ∀ text ∈ List.replicate (title :: titles).length "---", StaysInCell text := by
    intro text htext
    rw [List.eq_of_mem_replicate htext]
    decide
  constructor
  · rintro ⟨head, lines, hblock, hlines⟩ cells hmem
    obtain ⟨rfl, rfl⟩ := List.cons.inj (List.append_cancel_right hblock)
    have hrow : row cells ∈ rule (title :: titles).length :: rows.map row :=
      List.mem_cons_of_mem _ (List.mem_map_of_mem hmem)
    exact (hcells cells (hrows cells hmem)).mp (hlines _ (List.mem_cons_of_mem _ hrow))
  · intro h
    refine ⟨_, _, rfl, List.forall_mem_cons.mpr ⟨⟨hline, rfl⟩, List.forall_mem_cons.mpr ⟨?_, ?_⟩⟩⟩
    · exact (hcells _ List.length_replicate).mpr hdashes
    · rw [List.forall_mem_map]
      exact fun cells hmem => (hcells cells (hrows cells hmem)).mpr (h cells hmem)

end Markdown

open Markdown (Holdable IsTable OneLine StaysInCell block cell code heading padded readRow row
  rule)

/-- What a table shows of something that has a name, a type and perhaps a text can be held by
cells. -/
structure Showable (g : Graph) (name : String) (type : Ty) (doc : Option String) : Prop where
  name : Holdable name
  typeName : Holdable (typeName g type)
  description : Holdable (describe g doc type)

theorem showable_iff {name : String} {type : Ty} {doc : Option String} : Showable g name type doc ↔
    Holdable name ∧ Holdable (typeName g type) ∧ Holdable (describe g doc type) :=
  ⟨fun h => ⟨h.name, h.typeName, h.description⟩, fun h => ⟨h.1, h.2.1, h.2.2⟩⟩

theorem staysInCell_requiredText (optional : Bool) : StaysInCell (requiredText optional) := by
  cases optional <;> decide

theorem staysInCell_location (location : ParameterLocation) : StaysInCell location.text := by
  cases location <;> decide

/-- The table of some properties is one just if all of them can be shown. -/
theorem isTable_propertyTable_iff (g : Graph) (properties : List Property) :
    IsTable (propertyTable g properties) ↔
      ∀ p ∈ properties, Showable g p.name p.type p.doc := by
  have htable := @Markdown.isTable_iff "Property" ["Type", "Required", "Description"]
    (properties.map fun p => [cell p.name, code (cell (typeName g p.type)),
      requiredText p.optional, cell (describe g p.doc p.type)]) (by decide) (by simp)
  rw [List.map_map, List.forall_mem_map] at htable
  refine htable.trans (forall₂_congr fun p _ => ?_)
  simp [Markdown.staysInCell_cell_iff, Markdown.staysInCell_code_iff, staysInCell_requiredText,
    showable_iff]

/-- So is the table of some parameters. -/
theorem isTable_parameters_iff (g : Graph) (parameters : List Parameter) :
    IsTable (block (row ["Name", "In", "Type", "Required", "Description"] :: rule 5 ::
        parameters.map (parameterRow g))) ↔
      ∀ p ∈ parameters, Showable g p.name p.type p.doc := by
  have htable := @Markdown.isTable_iff "Name" ["In", "Type", "Required", "Description"]
    (parameters.map fun p => [cell p.name, p.location.text, code (cell (typeName g p.type)),
      requiredText p.optional, cell (describe g p.doc p.type)]) (by decide) (by simp)
  rw [List.map_map, List.forall_mem_map] at htable
  refine htable.trans (forall₂_congr fun p _ => ?_)
  simp [Markdown.staysInCell_cell_iff, Markdown.staysInCell_code_iff, staysInCell_requiredText,
    staysInCell_location, showable_iff]

/-- What is written into tables stays in its cells where cells can hold it: texts that stay are read
back from their row, a value stays in a cell just if it can be held, as it can without carriage
returns and backslashes, and the tables of properties and of parameters are tables just if all that
they show can be held. -/
structure KeepsCells (g : Graph) : Prop where
  read : ∀ first rest, (∀ text ∈ first :: rest, StaysInCell text) →
    OneLine (row (first :: rest)) ∧
      readRow (row (first :: rest)) = (first :: rest).map fun text => String.ofList (padded text)
  cell_iff : ∀ value, StaysInCell (cell value) ↔ Holdable value
  holdable : ∀ value, '\r' ∉ value.toList → '\\' ∉ value.toList → Holdable value
  properties_iff : ∀ properties, IsTable (propertyTable g properties) ↔
    ∀ p ∈ properties, Showable g p.name p.type p.doc
  parameters_iff : ∀ p parameters, ∃ table,
    parameterLines g (p :: parameters) = block [heading 4 "Parameters"] ++ table ∧
      (IsTable table ↔ ∀ q ∈ p :: parameters, Showable g q.name q.type q.doc)

/-- **Tables keep what they show in its cells just if cells can hold it.** -/
theorem tables_keepCells (g : Graph) : KeepsCells g where
  read first rest h :=
    ⟨((Markdown.row_holds_iff first rest).mpr h).1, Markdown.readRow_row_of_staysInCell h⟩
  cell_iff _ := Markdown.staysInCell_cell_iff
  holdable _ := Markdown.holdable_of_not_mem
  properties_iff := isTable_propertyTable_iff g
  parameters_iff p parameters := ⟨_, rfl, isTable_parameters_iff g (p :: parameters)⟩

/-- A carriage return alone stays in its cell as a line ending, and a backslash in front of a bar
escapes the one that is put there for the bar. -/
theorem cell_broken_return_and_bar : '\r' ∈ (cell "a\rb").toList ∧ ¬ StaysInCell (cell "a\rb") ∧
    (cell "a\\|b").toList = ['a', '\\', '\\', '|', 'b'] ∧ ¬ StaysInCell (cell "a\\|b") ∧
      (readRow (row [cell "a\\|b"])).length = 2 := by
  decide

end ApiEmit.Reference
