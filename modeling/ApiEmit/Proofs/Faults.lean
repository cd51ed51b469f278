/-
ApiEmit.Proofs.Faults — what the errors of a computation say.

A computation reports some faults when each of its errors is one of them and when it has an error
as soon as there is one of them. Which of several faults is reported is left open, so the faults
of a computation in steps are those of its steps, in whatever order the steps are taken.
-/
import ApiEmit.Graph.Load

namespace ApiEmit

variable {ε α β : Type}

/-- A computation in two steps has a result when both have. -/
theorem bind_eq_ok_iff {x : Except ε α} {f : α → Except ε β} {b : β} :
    x >>= f = .ok b ↔ ∃ a, x = .ok a ∧ f a = .ok b := by
  cases x with
  | error e =>
    refine ⟨nofun, fun h => ?_⟩
    obtain ⟨a, ha, _⟩ := h
    cases ha
  | ok a =>
    refine ⟨fun h => ⟨a, rfl, h⟩, fun h => ?_⟩
    obtain ⟨a', ha, hf⟩ := h
    cases ha
    exact hf

/-- The errors of a computation are faults of some sort, and no fault of the sort is passed over. -/
structure Reports (x : Except ε α) (fault : ε → Prop) : Prop where
  sound : ∀ e, x = .error e → fault e
  complete : ∀ e, fault e → ∃ e', x = .error e'

namespace Reports

variable {fault fault' : ε → Prop}

/-- There is a result exactly when there are no faults. -/
theorem exists_ok_iff {x : Except ε α} (h : Reports x fault) :
    (∃ a, x = .ok a) ↔ ∀ e, ¬ fault e := by
  constructor
  · rintro ⟨a, ha⟩ e he
    obtain ⟨e', he'⟩ := h.complete e he
    rw [ha] at he'
    cases he'
  · intro hnone
    cases hx : x with
    | ok a => exact ⟨a, rfl⟩
    | error e => exact absurd (h.sound e hx) (hnone e)

theorem congr {x : Except ε α} (h : Reports x fault) (heq : ∀ e, fault e ↔ fault' e) :
    Reports x fault' :=
  ⟨fun e he => (heq e).mp (h.sound e he), fun e he => h.complete e ((heq e).mpr he)⟩

/-- Faults that are told of in several ways are reported if they are told of at all. -/
theorem any {ι : Type} {x : Except ε α} {way : ι → Prop} {faults : ι → ε → Prop}
    (hway : ∃ i, way i) (h : ∀ i, way i → Reports x (faults i)) :
    Reports x fun e => ∃ i, way i ∧ faults i e where
  sound := fun e he => by
    obtain ⟨i, hi⟩ := hway
    exact ⟨i, hi, (h i hi).sound e he⟩
  complete := fun e ⟨i, hi, hfault⟩ => (h i hi).complete e hfault

theorem ok (a : α) : Reports (.ok a) fun _ : ε => False where
  sound := nofun
  complete := nofun

theorem error (e : ε) : Reports (.error e : Except ε α) fun e' => e' = e :=
  ⟨fun _ he => (Except.error.inj he).symm, fun _ _ => ⟨e, rfl⟩⟩

/-- The faults of two steps are those of the one and those of the other, where the faults of the
second do not depend on the result of the first. -/
theorem bind {x : Except ε α} {f : α → Except ε β} (hx : Reports x fault)
    (hf : ∀ a, x = .ok a → Reports (f a) fault') :
    Reports (x >>= f) fun e => fault e ∨ fault' e := by
  cases h : x with
  | error e =>
    refine ⟨fun e' he' => Or.inl ?_, fun _ _ => ⟨e, rfl⟩⟩
    cases he'
    exact hx.sound e h
  | ok a =>
    have hfa := hf a h
    refine ⟨fun e he => Or.inr (hfa.sound e he), ?_⟩
    rintro e (he | he)
    · exact absurd he (hx.exists_ok_iff.mp ⟨a, h⟩ e)
    · exact hfa.complete e he

/-- A last step without faults adds none. -/
theorem bind_ok {x : Except ε α} (hx : Reports x fault) (f : α → β) :
    Reports (x >>= fun a => .ok (f a)) fault :=
  (hx.bind fun a _ => ok (f a)).congr fun _ => or_iff_left id

/-- The faults of a step done for each entry of a list. -/
theorem mapM {f : α → Except ε β} {faults : α → ε → Prop} {entries : List α}
    (h : ∀ a ∈ entries, Reports (f a) (faults a)) :
    Reports (entries.mapM f) fun e => ∃ a ∈ entries, faults a e := by
  induction entries with
  | nil => exact (ok []).congr fun e => by simp
  | cons first rest ih =>
    have hfirst := h first List.mem_cons_self
    have hrest := ih fun a ha => h a (List.mem_cons_of_mem _ ha)
    rw [List.mapM_cons]
    apply (hfirst.bind fun b _ => hrest.bind_ok fun bs => b :: bs).congr
    intro e
    simp only [List.mem_cons, exists_eq_or_imp]

/-- The faults of a check done for each entry of a list. -/
theorem forM {f : α → Except ε PUnit} {faults : α → ε → Prop} {entries : List α}
    (h : ∀ a ∈ entries, Reports (f a) (faults a)) :
    Reports (entries.forM f) fun e => ∃ a ∈ entries, faults a e := by
  induction entries with
  | nil => exact (ok PUnit.unit).congr fun e => by simp
  | cons first rest ih =>
    have hfirst := h first List.mem_cons_self
    have hrest := ih fun a ha => h a (List.mem_cons_of_mem _ ha)
    apply (hfirst.bind fun _ _ => hrest).congr
    intro e
    simp only [List.mem_cons, exists_eq_or_imp]

/-- The faults of a value that may be absent. -/
theorem resolveOptional {resolve : α → Except LoadError β} {faults : α → LoadError → Prop}
    (h : ∀ a, Reports (resolve a) (faults a)) (value : Option α) :
    Reports (Load.resolveOptional resolve value) fun e => ∃ a, value = some a ∧ faults a e := by
  cases value with
  | none => exact (ok none).congr fun e => by simp
  | some a =>
    apply ((h a).bind_ok some).congr
    intro e
    simp

end Reports

end ApiEmit
