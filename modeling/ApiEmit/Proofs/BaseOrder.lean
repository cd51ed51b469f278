/-
ApiEmit.Proofs.BaseOrder — the models of a module, each once.

Models are placed with their bases one after the other. What is kept from step to step is that the
models placed are different models of the module (`Placed`); a step places the model it is for,
and none is taken away again.
-/
import ApiEmit.Pydantic.Module
import Mathlib.Data.List.Nodup

namespace ApiEmit.Pydantic

variable {g : Graph} {models placed : List DeclId} {id : DeclId}

/-! ## Chains of bases -/

/-- A chain holds models of the module that are not placed, each once. -/
theorem baseChain_spec (g : Graph) (steps : Nat) (placed : List DeclId) (hid : id ∈ models) :
    (baseChain g models steps placed id).Nodup ∧
      ∀ other ∈ baseChain g models steps placed id, other ∈ models ∧ other ∉ placed := by
  induction steps generalizing placed id with
  | zero => exact ⟨List.nodup_nil, nofun⟩
  | succ steps ih =>
    rw [baseChain]
    by_cases hplaced : id ∈ placed
    · rw [if_pos (List.contains_iff_mem.mpr hplaced)]
      exact ⟨List.nodup_nil, nofun⟩
    rw [if_neg (fun hc => hplaced (List.contains_iff_mem.mp hc))]
    -- only a base in the module has a chain of its own, which leaves this model out
    have hrest : ∀ rest : List DeclId, (rest.Nodup ∧
        ∀ other ∈ rest, other ∈ models ∧ other ∉ id :: placed) →
        (id :: rest).Nodup ∧ ∀ other ∈ id :: rest, other ∈ models ∧ other ∉ placed := by
      intro rest hrest
      refine ⟨List.nodup_cons.mpr ⟨fun hmem => ?_, hrest.1⟩, fun other hother => ?_⟩
      · exact (hrest.2 id hmem).2 List.mem_cons_self
      · rcases List.mem_cons.mp hother with rfl | hother
        · exact ⟨hid, hplaced⟩
        · exact ⟨(hrest.2 other hother).1,
            fun hmem => (hrest.2 other hother).2 (List.mem_cons_of_mem _ hmem)⟩
    apply hrest
    cases (g.model? id).bind (·.base) with
    | none => exact ⟨List.nodup_nil, nofun⟩
    | some base =>
      dsimp only
      split
      · rename_i hbase
        exact ih (id :: placed) (List.contains_iff_mem.mp hbase)
      · exact ⟨List.nodup_nil, nofun⟩

/-- A chain with any steps at all starts with its model, unless that is placed. -/
theorem mem_baseChain_self {steps : Nat} (hsteps : 0 < steps) (hplaced : id ∉ placed) :
    id ∈ baseChain g models steps placed id := by
  cases steps with
  | zero => cases hsteps
  | succ steps =>
    rw [baseChain, if_neg (fun hc => hplaced (List.contains_iff_mem.mp hc))]
    exact List.mem_cons_self

/-! ## Placing -/

/-- Models of a module are placed, each once. -/
structure Placed (models placed : List DeclId) : Prop where
  nodup : placed.Nodup
  mem : ∀ id ∈ placed, id ∈ models

theorem Placed.step (h : Placed models placed) (hid : id ∈ models) :
    Placed models (placeModel g models placed id) := by
  obtain ⟨hnodup, hmem⟩ := baseChain_spec g models.length placed hid
  refine ⟨?_, fun other hother => ?_⟩
  · refine List.nodup_append.mpr ⟨h.nodup, List.nodup_reverse.mpr hnodup, ?_⟩
    rintro a ha b hb rfl
    exact (hmem a (List.mem_reverse.mp hb)).2 ha
  · rcases List.mem_append.mp hother with hold | hnew
    · exact h.mem other hold
    · exact (hmem other (List.mem_reverse.mp hnew)).1

theorem mem_placeModel_self (hid : id ∈ models) : id ∈ placeModel g models placed id := by
  by_cases hplaced : id ∈ placed
  · exact List.mem_append_left _ hplaced
  · apply List.mem_append_right
    rw [List.mem_reverse]
    exact mem_baseChain_self (List.length_pos_of_mem hid) hplaced

theorem Placed.foldl {ids : List DeclId} (h : Placed models placed)
    (hids : ∀ id ∈ ids, id ∈ models) :
    Placed models (ids.foldl (placeModel g models) placed) := by
  induction ids generalizing placed with
  | nil => exact h
  | cons first rest ih =>
    rw [List.foldl_cons]
    exact ih (h.step (hids first List.mem_cons_self))
      fun id hid => hids id (List.mem_cons_of_mem _ hid)

theorem mem_foldl_placeModel {ids : List DeclId} (hids : ∀ id ∈ ids, id ∈ models)
    (h : id ∈ placed ∨ id ∈ ids) : id ∈ ids.foldl (placeModel g models) placed := by
  induction ids generalizing placed with
  | nil => simpa using h
  | cons first rest ih =>
    rw [List.foldl_cons]
    apply ih (fun id hid => hids id (List.mem_cons_of_mem _ hid))
    rcases h with hplaced | hmem
    · exact .inl (List.mem_append_left _ hplaced)
    · rcases List.mem_cons.mp hmem with rfl | hrest
      · exact .inl (mem_placeModel_self (hids id List.mem_cons_self))
      · exact .inr hrest

/-! ## The order of a module -/

theorem orderModels_nodup (g : Graph) (decls : List DeclId) : (orderModels g decls).Nodup :=
  (Placed.foldl ⟨List.nodup_nil, nofun⟩ fun _ hid => hid).nodup

/-- The models among some declarations are all placed, and nothing else is. -/
theorem mem_orderModels_iff {decls : List DeclId} :
    id ∈ orderModels g decls ↔ id ∈ decls ∧ (g.model? id).isSome = true := by
  rw [← List.mem_filter (p := fun id => (g.model? id).isSome)]
  refine ⟨fun h => ?_, fun h => ?_⟩
  · exact (Placed.foldl ⟨List.nodup_nil, nofun⟩ fun _ hid => hid).mem id h
  · exact mem_foldl_placeModel (fun _ hid => hid) (.inr h)

end ApiEmit.Pydantic
