/-
ApiEmit.Proofs.Substitution — texts in which the occurrences of a pattern are replaced.

A text is taken occurrence by occurrence (`Substituted`): where one stands in front it is replaced
as a whole, and else one character is kept. What is said about all characters that are left follows
from what is left when the occurrences are dropped, and from the replacement if there is any
occurrence (`forall_mem_substituteFrom_iff`).
-/
import ApiEmit.Text.Substitution
import Mathlib.Data.List.Infix

namespace ApiEmit.Text

variable {pattern replacement cs rest : List Char} {c : Char}

/-! ## Occurrence by occurrence -/

/-- A text and what is left of it, by rules: an occurrence in front is replaced, and a character
that starts none is kept. -/
inductive Substituted (pattern replacement : List Char) : List Char → List Char → Prop
  | nil : Substituted pattern replacement [] []
  | occurrence {rest out : List Char} (h : Substituted pattern replacement rest out) :
      Substituted pattern replacement (pattern ++ rest) (replacement ++ out)
  | char {c : Char} {rest out : List Char} (hc : ¬ pattern <+: c :: rest)
      (h : Substituted pattern replacement rest out) :
      Substituted pattern replacement (c :: rest) (c :: out)

/-- As many characters as are to be left out are left out. -/
theorem substituteFrom_length (front : List Char) :
    substituteFrom pattern replacement front.length (front ++ rest) =
      substituteFrom pattern replacement 0 rest := by
  induction front with
  | nil => rfl
  | cons c front ih => simpa [substituteFrom] using ih

theorem substituteFrom_occurrence (hne : pattern ≠ []) :
    substituteFrom pattern replacement 0 (pattern ++ rest) =
      replacement ++ substituteFrom pattern replacement 0 rest := by
  cases pattern with
  | nil => exact absurd rfl hne
  | cons c pattern =>
    have hfront : (c :: pattern).isPrefixOf (c :: (pattern ++ rest)) = true := by
      simp [List.isPrefixOf_iff_prefix]
    rw [List.cons_append, substituteFrom, if_pos hfront]
    exact congrArg _ (substituteFrom_length pattern)

theorem substituteFrom_char (hc : ¬ pattern <+: c :: rest) :
    substituteFrom pattern replacement 0 (c :: rest) =
      c :: substituteFrom pattern replacement 0 rest := by
  rw [substituteFrom, if_neg (mt List.isPrefixOf_iff_prefix.mp hc)]

/-- What is left of a text is found by the rules. -/
theorem substituted_substituteFrom (hne : pattern ≠ []) (replacement cs : List Char) :
    Substituted pattern replacement cs (substituteFrom pattern replacement 0 cs) := by
  induction hn : cs.length using Nat.strongRecOn generalizing cs with
  | ind n ih =>
    subst hn
    cases cs with
    | nil => exact .nil
    | cons c rest =>
      by_cases hfront : pattern <+: c :: rest
      · obtain ⟨behind, heq⟩ := hfront
        have hless : behind.length < (c :: rest).length := by
          have hpos := List.length_pos_of_ne_nil hne
          rw [← heq, List.length_append]
          omega
        rw [← heq, substituteFrom_occurrence hne]
        exact .occurrence (ih _ hless behind rfl)
      · rw [substituteFrom_char hfront]
        exact .char hfront (ih _ (Nat.lt_succ_self _) rest rfl)

/-! ## What is left -/

/-- All characters that are left are of a kind if those are that are left without any replacement,
and those of the replacement are in case there is an occurrence. -/
theorem forall_mem_substituteFrom_iff (hne : pattern ≠ []) {kind : Char → Prop} :
    (∀ c ∈ substituteFrom pattern replacement 0 cs, kind c) ↔
      (∀ c ∈ substituteFrom pattern [] 0 cs, kind c) ∧
        (pattern <:+: cs → ∀ c ∈ replacement, kind c) := by
  have h := substituted_substituteFrom hne replacement cs
  generalize substituteFrom pattern replacement 0 cs = out at h
  induction h with
  | nil => simp [substituteFrom, hne]
  | @occurrence rest out _ ih =>
    have hoccurs : pattern <:+: pattern ++ rest := (List.prefix_append pattern rest).isInfix
    simp only [substituteFrom_occurrence hne, List.nil_append, List.forall_mem_append, ih]
    constructor
    · rintro ⟨hreplacement, hrest, _⟩
      exact ⟨hrest, fun _ => hreplacement⟩
    · rintro ⟨hrest, hreplacement⟩
      exact ⟨hreplacement hoccurs, hrest, fun _ => hreplacement hoccurs⟩
  | @char c rest out hc _ ih =>
    have hoccurs : pattern <:+: c :: rest ↔ pattern <:+: rest := by
      rw [List.infix_cons_iff, or_iff_right hc]
    simp only [substituteFrom_char hc, List.forall_mem_cons, ih, hoccurs, and_assoc]

/-- A text without an occurrence is left as it is. -/
theorem substituteFrom_of_not_infix (hne : pattern ≠ []) (h : ¬ pattern <:+: cs) :
    substituteFrom pattern replacement 0 cs = cs := by
  have hout := substituted_substituteFrom hne replacement cs
  generalize substituteFrom pattern replacement 0 cs = out at hout
  induction hout with
  | nil => rfl
  | @occurrence rest => exact absurd (List.prefix_append pattern rest).isInfix h
  | char _ _ ih => rw [ih fun hrest => h (List.infix_cons hrest)]

end ApiEmit.Text
