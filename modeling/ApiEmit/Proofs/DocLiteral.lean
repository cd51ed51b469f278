/-
ApiEmit.Proofs.DocLiteral — where a documentation text ends for Python.

Python counts the quotes in a row as it reads, and a backslash takes the next character with it. A
stretch of text leaves a literal open with some quotes counted (`StaysOpen`), and stretches are read
one after the other. What is escaped leaves the quotes at its end open that are left when they are
taken in threes; the last of them is escaped, unless the text ends in a line ending, which is taken
off afterwards, or a backslash stands before it, which is one of the text and not one that escapes.
These two are the texts that a quote is left over from (`leftOver`).
-/
import ApiEmit.Python.Docstring
import Mathlib.Data.List.Infix

namespace ApiEmit.Python

variable {n m k : Nat} {c : Char} {cs cs' doc rest : List Char}

/-! ## Reading a literal -/

/-- What follows a literal between three double quotes, read from inside it behind some quotes in a
row: a backslash takes the next character with it, and the third quote in a row is the end. -/
def closeDoc? : Nat → List Char → Option (List Char)
  | _, [] => none
  | _, '\\' :: _ :: rest => closeDoc? 0 rest
  | quotes, '"' :: rest => if quotes = 2 then some rest else closeDoc? (quotes + 1) rest
  | _, _ :: rest => closeDoc? 0 rest

/-- What follows a literal between three double quotes that a text starts with. -/
def readDoc? : List Char → Option (List Char)
  | '"' :: '"' :: '"' :: rest => closeDoc? 0 rest
  | _ => none

/-- Characters inside a literal that do not end it, with the quotes in a row before and after. -/
inductive StaysOpen : Nat → List Char → Nat → Prop
  | nil {n : Nat} : StaysOpen n [] n
  | quote {n m : Nat} {cs : List Char} (hn : n < 2) (h : StaysOpen (n + 1) cs m) :
      StaysOpen n ('"' :: cs) m
  | escaped {n m : Nat} {c : Char} {cs : List Char} (hc : c = '\\' ∨ c = '"')
      (h : StaysOpen 0 cs m) : StaysOpen n ('\\' :: c :: cs) m
  | other {n m : Nat} {c : Char} {cs : List Char} (hquote : c ≠ '"') (hc : c ≠ '\\')
      (h : StaysOpen 0 cs m) : StaysOpen n (c :: cs) m

namespace StaysOpen

theorem append (h : StaysOpen n cs m) (h' : StaysOpen m cs' k) : StaysOpen n (cs ++ cs') k := by
  induction h with
  | nil => exact h'
  | quote hn _ ih => exact .quote hn (ih h')
  | escaped hc _ ih => exact .escaped hc (ih h')
  | other hquote hc _ ih => exact .other hquote hc (ih h')

/-- Reading goes on behind what leaves the literal open. -/
theorem closeDoc?_append (h : StaysOpen n cs m) (rest : List Char) :
    closeDoc? n (cs ++ rest) = closeDoc? m rest := by
  induction h with
  | nil => rfl
  | quote hn _ ih => rw [List.cons_append, closeDoc?, if_neg (by omega), ih]
  | escaped _ _ ih => rw [List.cons_append, List.cons_append, closeDoc?, ih]
  | other hquote hc _ ih =>
    rw [List.cons_append, closeDoc?, ih]
    · exact fun _ _ heq => absurd heq hc
    · exact hquote

/-- In front of anything but a quote it does not matter how many quotes stand before. -/
theorem of_ne_quote (h : StaysOpen 0 (c :: cs) m) (hc : c ≠ '"') : StaysOpen n (c :: cs) m := by
  cases h with
  | quote => exact absurd rfl hc
  | escaped hc' h => exact .escaped hc' h
  | other hquote hc' h => exact .other hquote hc' h

/-- A quote that no backslash stands before is one more in a row. -/
theorem of_append_quote (h : StaysOpen n (cs ++ ['"']) m) (hlast : cs.getLast? ≠ some '\\') :
    ∃ k, StaysOpen n cs k := by
  generalize hall : cs ++ ['"'] = all at h
  induction h generalizing cs with
  | nil => simp at hall
  | quote hn h ih =>
    cases cs with
    | nil => exact ⟨_, .nil⟩
    | cons first rest =>
      obtain ⟨rfl, rfl⟩ := List.cons.inj hall
      obtain ⟨k, hk⟩ := ih (fun hrest => hlast (by simp [List.getLast?_cons, hrest])) rfl
      exact ⟨k, .quote hn hk⟩
  | escaped hc h ih =>
    match cs with
    | [] => simp at hall
    | [first] =>
      rw [(List.cons.inj hall).1] at hlast
      exact absurd rfl hlast
    | first :: second :: rest =>
      obtain ⟨rfl, htail⟩ := List.cons.inj hall
      obtain ⟨rfl, rfl⟩ := List.cons.inj htail
      obtain ⟨k, hk⟩ := ih (fun hrest => hlast (by simp [List.getLast?_cons, hrest])) rfl
      exact ⟨k, .escaped hc hk⟩
  | other hquote hc h ih =>
    cases cs with
    | nil => exact absurd (List.cons.inj hall).1.symm hquote
    | cons first rest =>
      obtain ⟨rfl, rfl⟩ := List.cons.inj hall
      obtain ⟨k, hk⟩ := ih (fun hrest => hlast (by simp [List.getLast?_cons, hrest])) rfl
      exact ⟨k, .other hquote hc hk⟩

end StaysOpen

/-! ## Escaping -/

/-- The number of quotes in a row at the end, where some stand in front. -/
def quotesBehind (n : Nat) (cs : List Char) : Nat :=
  cs.foldl (fun n c => if c = '"' then n + 1 else 0) n

/-- The number of quotes in a row at the start. -/
def quotesAhead (cs : List Char) : Nat := (cs.takeWhile (· = '"')).length

/-- Where quotes stand open there are not enough behind them for a third. -/
def FewAhead (n : Nat) (doc : List Char) : Prop := n = 0 ∨ n + quotesAhead doc ≤ 2

@[simp] theorem quotesBehind_quote : quotesBehind n ('"' :: doc) = quotesBehind (n + 1) doc := by
  simp [quotesBehind]

theorem quotesBehind_cons_of_ne (hc : c ≠ '"') :
    quotesBehind n (c :: doc) = quotesBehind 0 doc := by
  simp [quotesBehind, hc]

@[simp] theorem quotesAhead_quote : quotesAhead ('"' :: doc) = quotesAhead doc + 1 := by
  simp [quotesAhead]

theorem quotesAhead_le_one (hthree : ∀ rest, doc ≠ '"' :: '"' :: rest) : quotesAhead doc ≤ 1 := by
  match doc with
  | [] => simp [quotesAhead]
  | [c] => exact (List.takeWhile_sublist _).length_le
  | c :: d :: rest =>
    by_cases hc : c = '"'
    · have hd : d ≠ '"' := fun hd => hthree rest (by rw [hc, hd])
      simp [quotesAhead, hc, hd]
    · simp [quotesAhead, hc]

namespace FewAhead

theorem zero : FewAhead 0 doc := .inl rfl

/-- Nothing stands open in front of three quotes. -/
theorem eq_zero (h : FewAhead n ('"' :: '"' :: '"' :: doc)) : n = 0 := by
  simp only [FewAhead, quotesAhead_quote] at h
  omega

/-- A quote that does not begin three in a row can be counted. -/
theorem quote (h : FewAhead n ('"' :: doc)) (hthree : ∀ rest, doc ≠ '"' :: '"' :: rest) :
    n < 2 ∧ FewAhead (n + 1) doc := by
  have hone := quotesAhead_le_one hthree
  simp only [FewAhead, quotesAhead_quote] at h ⊢
  omega

end FewAhead

/-- What is escaped leaves open the quotes at its end, without those in threes. -/
theorem staysOpen_escapeBody (h : FewAhead n doc) (hn : n = k % 3) :
    StaysOpen n (escapeBody doc) (quotesBehind k doc % 3) := by
  fun_induction escapeBody doc generalizing n k with
  | case1 =>
    rw [hn]
    exact .nil
  | case2 rest ih => exact .escaped (.inl rfl) (ih .zero rfl)
  | case3 rest ih =>
    obtain rfl := h.eq_zero
    simp only [quotesBehind_quote]
    exact .escaped (.inr rfl) (.escaped (.inr rfl) (.escaped (.inr rfl) (ih .zero (by omega))))
  | case4 c rest hbackslash hthree ih =>
    by_cases hc : c = '"'
    · subst hc
      obtain ⟨hlt, hfew⟩ := h.quote fun _ => hthree _ rfl
      rw [quotesBehind_quote]
      exact .quote hlt (ih hfew (by omega))
    · rw [quotesBehind_cons_of_ne hc]
      exact .other hc hbackslash (ih .zero rfl)

theorem eq_nil_of_escapeBody_eq_nil (h : escapeBody doc = []) : doc = [] := by
  fun_cases escapeBody doc <;> simp_all [escapeBody]

theorem eq_of_escapeBody_eq_singleton (h : escapeBody doc = [c]) : doc = [c] := by
  revert h
  fun_cases escapeBody doc with
  | case1 => simp
  | case2 => simp
  | case3 => simp
  | case4 first rest =>
    intro h
    obtain ⟨rfl, hrest⟩ := List.cons.inj h
    rw [eq_nil_of_escapeBody_eq_nil hrest]

/-- Where an escaped text ends in a quote with a backslash before it, the text does so itself, or
all quotes at its end are in threes. -/
theorem suffix_of_suffix_escapeBody (h : FewAhead n doc) (hn : n = k % 3)
    (hsuffix : ['\\', '"'] <:+ escapeBody doc) :
    ['\\', '"'] <:+ doc ∨ quotesBehind k doc % 3 = 0 := by
  fun_induction escapeBody doc generalizing n k with
  | case1 => simp at hsuffix
  | case2 rest ih =>
    rw [quotesBehind_cons_of_ne (by decide)]
    rcases List.suffix_cons_iff.1 hsuffix with heq | hsuffix
    · simp at heq
    rcases List.suffix_cons_iff.1 hsuffix with heq | hsuffix
    · rw [eq_of_escapeBody_eq_singleton (List.cons.inj heq).2.symm]
      exact .inl (List.suffix_refl _)
    · exact (ih .zero rfl hsuffix).imp_left fun h => h.trans (List.suffix_cons _ _)
  | case3 rest ih =>
    obtain rfl := h.eq_zero
    simp only [quotesBehind_quote]
    match hrest : escapeBody rest with
    | [] =>
      right
      rw [eq_nil_of_escapeBody_eq_nil hrest]
      show (k + 1 + 1 + 1) % 3 = 0
      omega
    | c :: tail =>
      have hsuffix : ['\\', '"'] <:+ escapeBody rest := by
        rw [hrest] at hsuffix ⊢
        simpa [List.suffix_cons_iff] using hsuffix
      refine (ih .zero (by omega) hsuffix).imp_left fun h => h.trans ?_
      exact List.suffix_append ['"', '"', '"'] rest
  | case4 c rest hbackslash hthree ih =>
    have hrest : ['\\', '"'] <:+ escapeBody rest := by
      refine (List.suffix_cons_iff.1 hsuffix).resolve_left fun heq => hbackslash ?_
      exact (List.cons.inj heq).1.symm
    by_cases hc : c = '"'
    · subst hc
      obtain ⟨hlt, hfew⟩ := h.quote fun _ => hthree _ rfl
      rw [quotesBehind_quote]
      exact (ih hfew (by omega) hrest).imp_left fun h => h.trans (List.suffix_cons _ _)
    · rw [quotesBehind_cons_of_ne hc]
      exact (ih .zero rfl hrest).imp_left fun h => h.trans (List.suffix_cons _ _)

theorem getLast?_escapeBody (doc : List Char) : (escapeBody doc).getLast? = doc.getLast? := by
  fun_induction escapeBody doc <;> simp_all [List.getLast?_cons]

theorem quotesBehind_of_getLast?_ne (h : doc.getLast? ≠ some '"') : quotesBehind 0 doc = 0 := by
  rcases List.eq_nil_or_concat doc with rfl | ⟨front, c, rfl⟩
  · rfl
  · have hc : c ≠ '"' := by simpa using h
    simp [quotesBehind, hc]

theorem quotesBehind_of_suffix (h : ['\\', '"'] <:+ doc) : quotesBehind 0 doc = 1 := by
  obtain ⟨front, rfl⟩ := h
  simp [quotesBehind]

/-- A backslash keeps apart what is escaped on its two sides. -/
theorem escapeBody_append_backslash (cs cs' : List Char) :
    escapeBody (cs ++ '\\' :: cs') = escapeBody cs ++ '\\' :: '\\' :: escapeBody cs' := by
  fun_induction escapeBody cs with
  | case1 => rfl
  | case2 rest ih => simp [escapeBody, ih]
  | case3 rest ih => simp [escapeBody, ih]
  | case4 c rest hbackslash hthree ih =>
    rw [List.cons_append, escapeBody, ih, List.cons_append]
    · exact hbackslash
    · intro tail hc hrest
      match rest with
      | [] => simp at hrest
      | [_] => simp at hrest
      | _ :: _ :: behind =>
        obtain ⟨rfl, rfl, -⟩ := by simpa using hrest
        exact hthree behind hc rfl

theorem suffix_escapeBody (h : ['\\', '"'] <:+ doc) : ['\\', '"'] <:+ escapeBody doc := by
  obtain ⟨front, rfl⟩ := h
  rw [escapeBody_append_backslash]
  exact (List.suffix_cons _ _).trans (List.suffix_append _ _)

/-! ## The quote at the end -/

theorem escapeLast_of_head?_ne (h : cs.head? ≠ some '"') : escapeLast cs = cs := by
  fun_cases escapeLast cs with
  | case1 => rfl
  | case2 => simp at h
  | case3 => rfl

theorem escapeLast_quote (h : cs.head? ≠ some '\\') :
    escapeLast ('"' :: cs) = '"' :: '\\' :: cs := by
  cases cs with
  | nil => rfl
  | cons c rest =>
    have hc : c ≠ '\\' := by simpa using h
    simp [escapeLast, hc]

@[simp] theorem head?_escapeLast (cs : List Char) : (escapeLast cs).head? = cs.head? := by
  fun_cases escapeLast cs <;> rfl

@[simp] theorem getLast?_docstringChars (doc : List Char) :
    (docstringChars doc).getLast? = doc.getLast? := by
  rw [docstringChars, List.getLast?_reverse, head?_escapeLast, List.head?_reverse,
    getLast?_escapeBody]

theorem docstringChars_of_getLast?_ne (h : doc.getLast? ≠ some '"') :
    docstringChars doc = escapeBody doc := by
  rw [docstringChars, escapeLast_of_head?_ne, List.reverse_reverse]
  rwa [List.head?_reverse, getLast?_escapeBody]

theorem docstringChars_of_suffix (h : ['\\', '"'] <:+ escapeBody doc) :
    docstringChars doc = escapeBody doc := by
  obtain ⟨front, hfront⟩ := h
  simp [docstringChars, ← hfront, escapeLast]

theorem docstringChars_of_append (hfront : escapeBody doc = cs ++ ['"'])
    (hlast : cs.getLast? ≠ some '\\') : docstringChars doc = cs ++ ['\\', '"'] := by
  rw [docstringChars, hfront, List.reverse_concat, escapeLast_quote (by rwa [List.head?_reverse])]
  simp

/-! ## Cutting into lines -/

/-- A text without the line ending it ends in. -/
def dropEnding : List Char → List Char
  | [] => []
  | ['\n'] => []
  | ['\r', '\n'] => []
  | c :: rest => c :: dropEnding rest

/-- A text with each line ending written as given. -/
def withEndings (ending : List Char) : List Char → List Char
  | [] => []
  | '\r' :: '\n' :: rest => ending ++ withEndings ending rest
  | '\n' :: rest => ending ++ withEndings ending rest
  | c :: rest => c :: withEndings ending rest

theorem intercalate_consFirst (ending : List Char) (ls : List (List Char)) :
    ending.intercalate (Text.consFirst c ls) = c :: ending.intercalate ls := by
  match ls with
  | [] => simp [Text.consFirst]
  | [line] => simp [Text.consFirst]
  | line :: next :: ls => simp [Text.consFirst, List.intercalate_cons_cons]

theorem eq_nil_of_linesOf_eq_nil (h : Text.linesOf cs = []) : cs = [] := by
  revert h
  fun_cases Text.linesOf cs <;> simp [Text.consFirst_ne_nil]

theorem dropEnding_prefix (cs : List Char) : dropEnding cs <+: cs := by
  fun_induction dropEnding cs with
  | case4 c rest _ _ ih => exact List.cons_prefix_cons.2 ⟨rfl, ih⟩
  | _ => exact List.nil_prefix

theorem dropEnding_cons (hfeed : c = '\n' → cs ≠ []) (hreturn : c = '\r' → cs ≠ ['\n']) :
    dropEnding (c :: cs) = c :: dropEnding cs := by
  rw [dropEnding]
  · exact hfeed
  · exact hreturn

theorem intercalate_nil_cons (ending : List Char) {ls : List (List Char)} (h : ls ≠ []) :
    ending.intercalate ([] :: ls) = ending ++ ending.intercalate ls := by
  obtain ⟨line, rest, rfl⟩ := List.exists_cons_of_ne_nil h
  rw [List.intercalate_cons_cons, List.nil_append]

/-- Lines that are joined again have lost the ending of the last one. -/
theorem intercalate_linesOf (ending cs : List Char) :
    ending.intercalate (Text.linesOf cs) = withEndings ending (dropEnding cs) := by
  fun_induction Text.linesOf cs with
  | case1 => simp [dropEnding, withEndings]
  | case2 rest ih =>
    by_cases hrest : rest = []
    · simp [hrest, Text.linesOf, dropEnding, withEndings]
    · rw [dropEnding_cons (by simp) (by simpa), dropEnding_cons (by simpa) (by simp), withEndings,
        ← ih, intercalate_nil_cons _ (mt eq_nil_of_linesOf_eq_nil hrest)]
  | case3 rest ih =>
    by_cases hrest : rest = []
    · simp [hrest, Text.linesOf, dropEnding, withEndings]
    · rw [dropEnding_cons (by simpa) (by simp), withEndings, ← ih,
        intercalate_nil_cons _ (mt eq_nil_of_linesOf_eq_nil hrest)]
  | case4 c rest hreturn hfeed ih =>
    rw [intercalate_consFirst, ih, dropEnding, withEndings]
    · intro tail hc htail
      obtain ⟨behind, hbehind⟩ := dropEnding_prefix rest
      exact hreturn _ hc (by rw [← hbehind, htail, List.cons_append])
    · exact hfeed
    · exact fun hc _ => hfeed hc
    · exact fun hc hrest => hreturn [] hc hrest

theorem withEndings_cons_of_ne (ending : List Char)
    (hreturn : ∀ rest, c = '\r' → cs ≠ '\n' :: rest) (hfeed : c ≠ '\n') :
    withEndings ending (c :: cs) = c :: withEndings ending cs := by
  rw [withEndings]
  · exact hreturn
  · exact hfeed

theorem staysOpen_spaces (width : Nat) : StaysOpen 0 (List.replicate width ' ') 0 := by
  induction width with
  | zero => exact .nil
  | succ width ih => exact .other (by decide) (by decide) ih

theorem staysOpen_newline (n width : Nat) : StaysOpen n ('\n' :: List.replicate width ' ') 0 :=
  .other (by decide) (by decide) (staysOpen_spaces width)

/-- A literal stays open where its lines are indented. -/
theorem StaysOpen.withEndings (h : StaysOpen n cs m) (width : Nat) :
    StaysOpen n (withEndings ('\n' :: List.replicate width ' ') cs) m := by
  induction h with
  | nil => exact .nil
  | quote hn _ ih =>
    rw [withEndings_cons_of_ne _ (by simp) (by decide)]
    exact .quote hn ih
  | escaped hc _ ih =>
    -- Neither character of the pair belongs to a line ending.
    rw [withEndings_cons_of_ne _ (by simp) (by decide),
      withEndings_cons_of_ne _ (by rintro _ rfl; simp at hc) (by rintro rfl; simp at hc)]
    exact .escaped hc ih
  | @other n m c cs hquote hc _ ih =>
    by_cases hfeed : c = '\n'
    · subst hfeed
      exact (staysOpen_newline n width).append ih
    by_cases hreturn : c = '\r' ∧ ∃ rest, cs = '\n' :: rest
    · obtain ⟨rfl, rest, rfl⟩ := hreturn
      exact ih.of_ne_quote (by decide)
    · rw [withEndings_cons_of_ne _ (fun rest hc hcs => hreturn ⟨hc, rest, hcs⟩) hfeed]
      exact .other hquote hc ih

/-! ## The whole literal -/

theorem dropEnding_of_getLast?_ne (h : cs.getLast? ≠ some '\n') : dropEnding cs = cs := by
  fun_induction dropEnding cs with
  | case1 => rfl
  | case2 => simp at h
  | case3 => simp at h
  | case4 c rest _ _ ih =>
    rw [ih]
    intro hrest
    exact h (by simp [List.getLast?_cons, hrest])

theorem dropEnding_escapeBody (doc : List Char) :
    dropEnding (escapeBody doc) = escapeBody (dropEnding doc) := by
  fun_induction escapeBody doc with
  | case1 => rfl
  | case2 rest ih => simp [dropEnding, escapeBody, ih]
  | case3 rest ih => simp [dropEnding, escapeBody, ih]
  | case4 c rest hbackslash hthree ih =>
    by_cases hfeed : c = '\n' ∧ rest = []
    · obtain ⟨rfl, rfl⟩ := hfeed
      rfl
    by_cases hreturn : c = '\r' ∧ rest = ['\n']
    · obtain ⟨rfl, rfl⟩ := hreturn
      rfl
    rw [dropEnding_cons (fun hc hrest => hfeed ⟨hc, eq_nil_of_escapeBody_eq_nil hrest⟩)
        fun hc hrest => hreturn ⟨hc, eq_of_escapeBody_eq_singleton hrest⟩,
      dropEnding_cons (fun hc hrest => hfeed ⟨hc, hrest⟩) fun hc hrest => hreturn ⟨hc, hrest⟩,
      ih, escapeBody]
    · exact hbackslash
    · intro tail hc htail
      obtain ⟨behind, hbehind⟩ := dropEnding_prefix rest
      exact hthree _ hc (by rw [← hbehind, htail]; rfl)

/-- The quotes that are left over behind the literal of a documentation text. -/
def leftOver (doc : List Char) : Nat :=
  if ['\\', '"'] <:+ doc then 1
  else if doc.getLast? = some '\n' then quotesBehind 0 (dropEnding doc) % 3
  else 0

/-- Where a text ends in a quote, it is escaped, unless a backslash of the text stands before it. -/
theorem staysOpen_docstringChars_of_quote (hquote : doc.getLast? = some '"') :
    StaysOpen 0 (docstringChars doc) (if ['\\', '"'] <:+ doc then 1 else 0) := by
  have hbody : StaysOpen 0 (escapeBody doc) (quotesBehind 0 doc % 3) :=
    staysOpen_escapeBody .zero rfl
  by_cases hsuffix : ['\\', '"'] <:+ escapeBody doc
  · rw [docstringChars_of_suffix hsuffix]
    split_ifs with hdoc
    · rwa [quotesBehind_of_suffix hdoc] at hbody
    · rwa [(suffix_of_suffix_escapeBody .zero rfl hsuffix).resolve_left hdoc] at hbody
  · rw [if_neg (mt suffix_escapeBody hsuffix)]
    obtain ⟨front, hfront⟩ := List.getLast?_eq_some_iff.1 ((getLast?_escapeBody doc).trans hquote)
    have hlast : front.getLast? ≠ some '\\' := by
      intro hlast
      obtain ⟨start, rfl⟩ := List.getLast?_eq_some_iff.1 hlast
      exact hsuffix ⟨start, by simp [hfront]⟩
    rw [hfront] at hbody
    obtain ⟨k, hopen⟩ := hbody.of_append_quote hlast
    rw [docstringChars_of_append hfront hlast]
    exact hopen.append (.escaped (.inr rfl) .nil)

theorem staysOpen_docstringChars (doc : List Char) :
    StaysOpen 0 (dropEnding (docstringChars doc)) (leftOver doc) := by
  rcases eq_or_ne doc.getLast? (some '"') with hquote | hquote
  · have hline : (docstringChars doc).getLast? ≠ some '\n' := by simp [hquote]
    simpa [dropEnding_of_getLast?_ne hline, leftOver, hquote] using
      staysOpen_docstringChars_of_quote hquote
  · have hslash : ¬ ['\\', '"'] <:+ doc := by
      rintro ⟨front, rfl⟩
      simp at hquote
    rw [docstringChars_of_getLast?_ne hquote, leftOver, if_neg hslash]
    split_ifs with hline
    · rw [dropEnding_escapeBody]
      exact staysOpen_escapeBody .zero rfl
    · have hbody : StaysOpen 0 (escapeBody doc) (quotesBehind 0 doc % 3) :=
        staysOpen_escapeBody .zero rfl
      rw [dropEnding_of_getLast?_ne (by rwa [getLast?_escapeBody])]
      rwa [quotesBehind_of_getLast?_ne hquote] at hbody

/-- Less than three quotes before the delimiter stand behind the literal in the end. -/
theorem closeDoc?_delimiter (h : n ≤ 2) :
    closeDoc? n ['"', '"', '"'] = some (List.replicate n '"') := by
  match n, h with
  | 0, _ => rfl
  | 1, _ => rfl
  | 2, _ => rfl

theorem leftOver_le (doc : List Char) : leftOver doc ≤ 2 := by
  rw [leftOver]
  split_ifs <;> omega

theorem toList_docstring (doc : String) (width : Nat) :
    (docstring doc (String.ofList (List.replicate width ' '))).toList =
      List.replicate width ' ' ++ '"' :: '"' :: '"' ::
        (withEndings ('\n' :: List.replicate width ' ') (dropEnding (docstringChars doc.toList)) ++
          ['"', '"', '"']) := by
  rw [← intercalate_linesOf]
  simp [docstring, docDelimiter, Text.lines, escapeDocstring]

/-- Documentation indented by so many spaces is, behind them, a literal with a rest after it. -/
def LeavesOver (doc : String) (width : Nat) (rest : List Char) : Prop :=
  ∃ literal, (docstring doc (String.ofList (List.replicate width ' '))).toList =
    List.replicate width ' ' ++ literal ∧ readDoc? literal = some rest

theorem LeavesOver.unique {doc : String} {width : Nat} (h : LeavesOver doc width rest)
    (h' : LeavesOver doc width cs) : rest = cs := by
  obtain ⟨literal, htext, hread⟩ := h
  obtain ⟨literal', htext', hread'⟩ := h'
  obtain rfl : literal = literal' := List.append_cancel_left (htext.symm.trans htext')
  exact Option.some_inj.1 (hread.symm.trans hread')

theorem leavesOver_leftOver (doc : String) (width : Nat) :
    LeavesOver doc width (List.replicate (leftOver doc.toList) '"') := by
  refine ⟨_, toList_docstring doc width, ?_⟩
  have hopen := (staysOpen_docstringChars doc.toList).withEndings width
  rw [readDoc?, hopen.closeDoc?_append, closeDoc?_delimiter (leftOver_le _)]

/-- The texts that break out of their literal: those with a backslash before a quote at their end,
and those that end in a line ending with quotes before it that are not all in threes. -/
def BreaksOut (doc : List Char) : Prop :=
  ['\\', '"'] <:+ doc ∨ (doc.getLast? = some '\n' ∧ ¬ 3 ∣ quotesBehind 0 (dropEnding doc))

theorem leftOver_eq_zero_iff (doc : List Char) : leftOver doc = 0 ↔ ¬ BreaksOut doc := by
  rw [leftOver, BreaksOut]
  split_ifs with hslash hline
  · simp [hslash]
  · simp [hslash, hline, Nat.dvd_iff_mod_eq_zero]
  · simp [hslash, hline]

/-- **Documentation is a literal that closes, with nothing behind it but for two kinds of text.** At
most two quotes are left over, and there are some exactly where the text breaks out. -/
theorem leavesOver_docstring (doc : String) (width : Nat) :
    LeavesOver doc width (List.replicate (leftOver doc.toList) '"') ∧ leftOver doc.toList ≤ 2 ∧
      (LeavesOver doc width [] ↔ ¬ BreaksOut doc.toList) := by
  have hleft := leavesOver_leftOver doc width
  refine ⟨hleft, leftOver_le _, ?_⟩
  rw [← leftOver_eq_zero_iff]
  constructor
  · intro hnone
    simpa using hleft.unique hnone
  · intro hzero
    rwa [hzero] at hleft

/-- A quote that the text has a backslash before is not escaped, and neither is one before a line
ending. -/
theorem leavesOver_trailing_quotes :
    LeavesOver "Matches \\\"" 4 ['"'] ∧ LeavesOver "Say \"hi\"\n" 4 ['"'] ∧
      ¬ ∀ (doc : String) (width : Nat), LeavesOver doc width [] := by
  have hslash : LeavesOver "Matches \\\"" 4 ['"'] := leavesOver_leftOver "Matches \\\"" 4
  have hline : LeavesOver "Say \"hi\"\n" 4 ['"'] := leavesOver_leftOver "Say \"hi\"\n" 4
  refine ⟨hslash, hline, ?_⟩
  intro h
  exact absurd (hslash.unique (h _ _)) (by simp)

end ApiEmit.Python
