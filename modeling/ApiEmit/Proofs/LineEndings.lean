/-
ApiEmit.Proofs.LineEndings — a text with a carriage return in front of each line feed.

The conversion is made of two substitutions, and the second one can put a carriage return behind
another one. That does no harm: of the returns in front of a line feed the last one alone belongs to
its line ending, so dropping it undoes the second substitution (`toLf_addReturns`), and texts whose
line feeds all have one are the texts that come of it (`addReturns_toLf`). The converted text is
therefore a normal form: of all texts that are the same up to line endings it is the only such one.
-/
import ApiEmit.Host.LineEnding
import ApiEmit.Proofs.Substitution
import Mathlib.Data.List.Chain

namespace ApiEmit.LineEnding

variable {cs : List Char}

/-! ## The two substitutions -/

theorem toLf_eq_substituteFrom (cs : List Char) :
    toLf cs = Text.substituteFrom ['\r', '\n'] ['\n'] 0 cs := by
  fun_induction toLf cs with
  | case1 => rfl
  | case2 rest ih =>
    have hstep : Text.substituteFrom ['\r', '\n'] ['\n'] 0 (['\r', '\n'] ++ rest) =
        ['\n'] ++ Text.substituteFrom ['\r', '\n'] ['\n'] 0 rest :=
      Text.substituteFrom_occurrence (List.cons_ne_nil _ _)
    rw [ih]
    exact hstep.symm
  | case3 c rest hnext ih =>
    have hc : ¬ ['\r', '\n'] <+: c :: rest := by
      rintro ⟨behind, heq⟩
      obtain ⟨rfl, rfl⟩ := List.cons.inj heq
      exact hnext behind rfl rfl
    rw [ih, Text.substituteFrom_char hc]

theorem addReturns_eq_substituteFrom (cs : List Char) :
    addReturns cs = Text.substituteFrom ['\n'] ['\r', '\n'] 0 cs := by
  induction cs with
  | nil => rfl
  | cons c rest ih =>
    rw [addReturns]
    split
    · subst c
      have hstep : Text.substituteFrom ['\n'] ['\r', '\n'] 0 (['\n'] ++ rest) =
          ['\r', '\n'] ++ Text.substituteFrom ['\n'] ['\r', '\n'] 0 rest :=
        Text.substituteFrom_occurrence (List.cons_ne_nil _ _)
      rw [ih]
      exact hstep.symm
    · rename_i hc
      have hfront : ¬ ['\n'] <+: c :: rest := by simpa using Ne.symm hc
      rw [ih, Text.substituteFrom_char hfront]

/-- A text with a line feed for each carriage return and line feed. -/
def withFeeds (text : String) : String := Text.substitute "\r\n" "\n" text

theorem withFeeds_eq (text : String) : withFeeds text = String.ofList (toLf text.toList) := by
  rw [toLf_eq_substituteFrom]
  rfl

theorem apply_crlf_eq_substitute (text : String) :
    crlf.apply text = Text.substitute "\n" "\r\n" (withFeeds text) := by
  rw [withFeeds_eq, apply, applyChars, addReturns_eq_substituteFrom, Text.substitute]
  simp

/-! ## Line feeds that have a carriage return -/

/-- In front of a line feed stands a carriage return. -/
def FeedOnReturn (c next : Char) : Prop := next = '\n' → c = '\r'

/-- Each line feed stands right behind a carriage return. -/
structure FeedsReturned (cs : List Char) : Prop where
  head : cs.head? ≠ some '\n'
  isChain : cs.IsChain FeedOnReturn

theorem FeedsReturned.cons {c : Char} (h : FeedsReturned cs) (hc : c ≠ '\n') :
    FeedsReturned (c :: cs) where
  head := by simpa using hc
  isChain := List.isChain_cons.mpr ⟨fun next hnext heq => absurd (heq ▸ hnext) h.head, h.isChain⟩

theorem FeedsReturned.return_feed (h : FeedsReturned cs) :
    FeedsReturned ('\r' :: '\n' :: cs) where
  head := by simp
  isChain := by
    refine .cons_cons (fun _ => rfl) (List.isChain_cons.mpr ⟨?_, h.isChain⟩)
    exact fun next hnext heq => absurd (heq ▸ hnext) h.head

/-- What comes behind a character, unless that is the return of a line feed. -/
theorem feedsReturned_of_isChain {c : Char} {rest : List Char}
    (h : (c :: rest).IsChain FeedOnReturn) (hc : c = '\r' → rest.head? ≠ some '\n') :
    FeedsReturned rest := by
  obtain ⟨hnext, hrest⟩ := List.isChain_cons.mp h
  exact ⟨fun hhead => hc (hnext _ hhead rfl) hhead, hrest⟩

theorem feedsReturned_addReturns (cs : List Char) : FeedsReturned (addReturns cs) := by
  induction cs with
  | nil => exact ⟨by simp [addReturns], .nil⟩
  | cons c rest ih =>
    rw [addReturns]
    split
    · exact ih.return_feed
    · rename_i hc
      exact ih.cons hc

/-- Dropping the returns of the line endings undoes adding them. -/
theorem toLf_addReturns (cs : List Char) : toLf (addReturns cs) = cs := by
  induction cs with
  | nil => rfl
  | cons c rest ih =>
    rw [addReturns]
    split
    · rename_i hc
      rw [toLf, ih, hc]
    · rename_i hc
      -- a carriage return that is kept stands in front of no line feed any more
      rw [toLf, ih]
      rintro behind rfl heq
      have hhead := (feedsReturned_addReturns rest).head
      rw [heq] at hhead
      exact hhead rfl

/-- Adding the returns undoes dropping them, where each line feed has one. -/
theorem addReturns_toLf (h : FeedsReturned cs) : addReturns (toLf cs) = cs := by
  fun_induction toLf cs with
  | case1 => rfl
  | case2 rest ih =>
    obtain ⟨_, hbehind⟩ := List.isChain_cons_cons.mp h.isChain
    have hrest := feedsReturned_of_isChain hbehind fun heq => absurd heq (by decide)
    rw [addReturns, if_pos rfl, ih hrest]
  | case3 c rest hnext ih =>
    have hc : c ≠ '\n' := by simpa using h.head
    have hrest : FeedsReturned rest := by
      refine feedsReturned_of_isChain h.isChain fun heq hhead => ?_
      obtain ⟨behind, hbehind⟩ := List.head?_eq_some_iff.mp hhead
      exact hnext behind heq hbehind
    rw [addReturns, if_neg hc, ih hrest]

theorem toList_apply_crlf (text : String) :
    (crlf.apply text).toList = addReturns (toLf text.toList) := by
  rw [apply, applyChars, String.toList_ofList]

theorem feedsReturned_apply (text : String) : FeedsReturned (crlf.apply text).toList := by
  rw [toList_apply_crlf]
  exact feedsReturned_addReturns _

theorem withFeeds_apply (text : String) : withFeeds (crlf.apply text) = withFeeds text := by
  rw [withFeeds_eq, withFeeds_eq, toList_apply_crlf, toLf_addReturns]

/-- Of the texts that are the same up to line endings, the converted one is the one whose line feeds
all have a carriage return. -/
theorem eq_apply_crlf_iff {text other : String} : other = crlf.apply text ↔
    FeedsReturned other.toList ∧ withFeeds other = withFeeds text := by
  constructor
  · rintro rfl
    exact ⟨feedsReturned_apply text, withFeeds_apply text⟩
  · rintro ⟨hother, heq⟩
    rw [withFeeds_eq, withFeeds_eq, String.ofList_inj] at heq
    apply String.toList_inj.mp
    rw [toList_apply_crlf, ← heq, addReturns_toLf hother]

/-- **The converted text is a normal form.** Each of its line feeds has a carriage return, it is the
text up to line endings, no other text is both, and converting it again changes nothing. -/
theorem apply_crlf_normalForm (text : String) :
    FeedsReturned (crlf.apply text).toList ∧
      withFeeds (crlf.apply text) = withFeeds text ∧
      (∀ other : String, other = crlf.apply text ↔
        FeedsReturned other.toList ∧ withFeeds other = withFeeds text) ∧
      crlf.apply (crlf.apply text) = crlf.apply text := by
  have hreturned := feedsReturned_apply text
  have hagain : crlf.apply text = crlf.apply (crlf.apply text) :=
    eq_apply_crlf_iff.mpr ⟨hreturned, rfl⟩
  exact ⟨hreturned, withFeeds_apply text, fun _ => eq_apply_crlf_iff, hagain.symm⟩

/-- Returns that stand in front of a line ending are kept. -/
example : crlf.apply "a\r\r\nb\n" = "a\r\r\nb\r\n" := by
  decide

end ApiEmit.LineEnding
