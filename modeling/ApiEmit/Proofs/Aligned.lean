/-
ApiEmit.Proofs.Aligned — two lists that agree entry by entry.

What one list is made from another entry by entry, in one or in several steps, and what holds of
the entries at one position. The same for a value that may be missing.
-/
import Mathlib.Data.List.Forall2

namespace ApiEmit.Aligned

variable {α β γ κ : Type} {R : α → β → Prop} {S : β → γ → Prop}

/-- One step after another is a step. -/
theorem trans {as : List α} {bs : List β} {cs : List γ} (h : List.Forall₂ R as bs)
    (h' : List.Forall₂ S bs cs) : List.Forall₂ (fun a c => ∃ b, R a b ∧ S b c) as cs := by
  induction h generalizing cs with
  | nil =>
    cases h'
    exact .nil
  | cons hfirst _ ih =>
    cases h' with
    | cons hfirst' hrest' => exact .cons ⟨_, hfirst, hfirst'⟩ (ih hrest')

/-- What the entries agree in, the lists agree in. -/
theorem map_eq {f : α → κ} {f' : β → κ} (hf : ∀ a b, R a b → f a = f' b) {as : List α}
    {bs : List β} (h : List.Forall₂ R as bs) : as.map f = bs.map f' := by
  induction h with
  | nil => rfl
  | cons hfirst _ ih => rw [List.map_cons, List.map_cons, hf _ _ hfirst, ih]

theorem exists_right {as : List α} {bs : List β} (h : List.Forall₂ R as bs) {a : α} (ha : a ∈ as) :
    ∃ b ∈ bs, R a b := by
  induction h with
  | nil => cases ha
  | cons hfirst _ ih =>
    rcases List.mem_cons.mp ha with rfl | ha
    · exact ⟨_, List.mem_cons_self, hfirst⟩
    · obtain ⟨b, hb, hab⟩ := ih ha
      exact ⟨b, List.mem_cons_of_mem _ hb, hab⟩

theorem exists_left {as : List α} {bs : List β} (h : List.Forall₂ R as bs) {b : β} (hb : b ∈ bs) :
    ∃ a ∈ as, R a b :=
  exists_right h.flip hb

/-- An entry is in one list when what it stands to is in the other, where each tells the other. -/
theorem mem_iff {as : List α} {bs : List β} (h : List.Forall₂ R as bs)
    (hleft : ∀ a a' b, R a b → R a' b → a = a') (hright : ∀ a b b', R a b → R a b' → b = b')
    {a : α} {b : β} (hab : R a b) : b ∈ bs ↔ a ∈ as := by
  constructor
  · intro hb
    obtain ⟨a', ha', hab'⟩ := exists_left h hb
    exact hleft _ _ _ hab' hab ▸ ha'
  · intro ha
    obtain ⟨b', hb', hab'⟩ := exists_right h ha
    exact hright _ _ _ hab' hab ▸ hb'

/-- What is made from each entry, if that is never missing, is made from the list. -/
theorem exists_mapM {as : List α} {bs : List β} (h : List.Forall₂ R as bs) {f : β → Option γ}
    {T : α → γ → Prop} (hf : ∀ a b, R a b → ∃ c, f b = some c ∧ T a c) :
    ∃ cs, bs.mapM f = some cs ∧ List.Forall₂ T as cs := by
  induction h with
  | nil => exact ⟨[], rfl, .nil⟩
  | cons hfirst _ ih =>
    obtain ⟨c, hc, hac⟩ := hf _ _ hfirst
    obtain ⟨cs, hcs, hrest⟩ := ih
    refine ⟨c :: cs, ?_, .cons hac hrest⟩
    rw [List.mapM_cons, hc, hcs]
    rfl

/-- Entries at one position agree. -/
theorem exists_getElem?_left {as : List α} {bs : List β} (h : List.Forall₂ R as bs) {i : Nat}
    {b : β} (hb : bs[i]? = some b) : ∃ a, as[i]? = some a ∧ R a b := by
  induction h generalizing i with
  | nil => cases hb
  | cons hfirst _ ih =>
    cases i with
    | zero =>
      cases hb
      exact ⟨_, rfl, hfirst⟩
    | succ i => exact ih hb

/-- Values that agree in one way agree in every way that follows from it. -/
theorem option_imp {R' : α → β → Prop} (himp : ∀ a b, R a b → R' a b) {a : Option α} {b : Option β}
    (h : Option.Rel R a b) : Option.Rel R' a b := by
  cases h with
  | some h => exact .some (himp _ _ h)
  | none => exact .none

/-- Either both values are missing or both are there. -/
theorem option_cases {a : Option α} {b : Option β} (h : Option.Rel R a b) :
    (a = none ∧ b = none) ∨ ∃ x y, a = some x ∧ b = some y ∧ R x y := by
  cases h with
  | some h => exact .inr ⟨_, _, rfl, rfl, h⟩
  | none => exact .inl ⟨rfl, rfl⟩

theorem exists_some_left {a : Option α} {y : β} (h : Option.Rel R a (some y)) :
    ∃ x, a = some x ∧ R x y := by
  cases h with
  | some h => exact ⟨_, rfl, h⟩

theorem exists_some_right {b : Option β} {x : α} (h : Option.Rel R (some x) b) :
    ∃ y, b = some y ∧ R x y := by
  cases h with
  | some h => exact ⟨_, rfl, h⟩

/-- What different entries stand to is different, where it tells to what it stands. -/
theorem nodup_right (hR : ∀ a a' b, R a b → R a' b → a = a') {as : List α} {bs : List β}
    (h : List.Forall₂ R as bs) (hnodup : as.Nodup) : bs.Nodup := by
  induction h with
  | nil => exact List.nodup_nil
  | cons hfirst hrest ih =>
    rw [List.nodup_cons] at hnodup ⊢
    refine ⟨fun hmem => hnodup.1 ?_, ih hnodup.2⟩
    obtain ⟨a, ha, hab⟩ := exists_left hrest hmem
    exact hR _ _ _ hab hfirst ▸ ha

end ApiEmit.Aligned
