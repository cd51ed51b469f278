/-
ApiEmit.Proofs.Parts — what type expressions are made of.

An expression contains its parts, their parts, and so on. A reference has no parts: what it
refers to stands elsewhere. The size of an expression counts all that it contains, so a walk
that replaces an expression by its parts has one node less to go.
-/
import ApiEmit.Graph.Query
import Mathlib.Logic.Relation

namespace ApiEmit.TypeExpr

variable {ρ ι : Type}

/-! ## Parts -/

/-- The expressions that an expression is made of, one level down. -/
def parts : TypeExpr ρ ι → List (TypeExpr ρ ι)
  | .array element => [element]
  | .record value => [value]
  | .union variants => variants
  | .model properties => properties.map (·.type)
  | _ => []

@[simp] theorem parts_ref (target : ρ) : (TypeExpr.ref target : TypeExpr ρ ι).parts = [] := rfl

@[simp] theorem parts_intrinsic (i : ι) : (TypeExpr.intrinsic i : TypeExpr ρ ι).parts = [] := rfl

@[simp] theorem parts_array (e : TypeExpr ρ ι) : (TypeExpr.array e).parts = [e] := rfl

@[simp] theorem parts_record (e : TypeExpr ρ ι) : (TypeExpr.record e).parts = [e] := rfl

@[simp] theorem parts_union (es : List (TypeExpr ρ ι)) : (TypeExpr.union es).parts = es := rfl

@[simp] theorem parts_model (ps : List (InlineProperty (TypeExpr ρ ι))) :
    (TypeExpr.model ps).parts = ps.map (·.type) := rfl

/-- An expression stands within another, at any depth; every expression stands within itself. -/
def Contains : TypeExpr ρ ι → TypeExpr ρ ι → Prop :=
  Relation.ReflTransGen fun e inner => inner ∈ e.parts

theorem Contains.refl (e : TypeExpr ρ ι) : e.Contains e := Relation.ReflTransGen.refl

theorem Contains.head {e part inner : TypeExpr ρ ι} (hpart : part ∈ e.parts)
    (h : part.Contains inner) : e.Contains inner :=
  Relation.ReflTransGen.head hpart h

/-- What stands within an expression is the expression or stands within one of its parts. -/
theorem contains_iff {e inner : TypeExpr ρ ι} :
    e.Contains inner ↔ inner = e ∨ ∃ part ∈ e.parts, part.Contains inner := by
  constructor
  · intro h
    rcases Relation.ReflTransGen.cases_head h with rfl | ⟨part, hpart, hrest⟩
    · exact Or.inl rfl
    · exact Or.inr ⟨part, hpart, hrest⟩
  · intro h
    rcases h with rfl | ⟨part, hpart, hrest⟩
    · exact Contains.refl _
    · exact Contains.head hpart hrest

/-- Only the expression itself stands within one without parts. -/
theorem contains_iff_of_parts_eq_nil {e inner : TypeExpr ρ ι} (h : e.parts = []) :
    e.Contains inner ↔ inner = e := by
  rw [contains_iff, h]
  simp

@[simp] theorem ref_contains_iff {target : ρ} {inner : TypeExpr ρ ι} :
    (TypeExpr.ref target).Contains inner ↔ inner = .ref target :=
  contains_iff_of_parts_eq_nil rfl

@[simp] theorem intrinsic_contains_iff {i : ι} {inner : TypeExpr ρ ι} :
    (TypeExpr.intrinsic i).Contains inner ↔ inner = .intrinsic i :=
  contains_iff_of_parts_eq_nil rfl

/-! ## Sizes -/

@[simp] theorem sizeAll_append (es es' : List (TypeExpr ρ ι)) :
    sizeAll (es ++ es') = sizeAll es + sizeAll es' := by
  induction es with
  | nil => simp [sizeAll]
  | cons e es ih =>
    simp only [List.cons_append, sizeAll, ih]
    omega

theorem sizeProperties_eq (ps : List (InlineProperty (TypeExpr ρ ι))) :
    sizeProperties ps = sizeAll (ps.map (·.type)) := by
  induction ps with
  | nil => rfl
  | cons p ps ih =>
    obtain ⟨name, type, optional, doc⟩ := p
    simp only [sizeProperties, List.map_cons, sizeAll, ih]

/-- An expression is one node more than its parts. -/
theorem size_eq (e : TypeExpr ρ ι) : e.size = sizeAll e.parts + 1 := by
  cases e with
  | array e => simp [size, sizeAll]
  | record e => simp [size, sizeAll]
  | union es => simp [size]
  | model ps => simp [size, sizeProperties_eq]
  | _ => rfl

theorem size_le_sizeAll {e : TypeExpr ρ ι} {es : List (TypeExpr ρ ι)} (h : e ∈ es) :
    e.size ≤ sizeAll es := by
  induction es with
  | nil => cases h
  | cons first rest ih =>
    simp only [sizeAll]
    rcases List.mem_cons.mp h with rfl | hrest
    · omega
    · have := ih hrest
      omega

theorem size_lt_of_mem_parts {e part : TypeExpr ρ ι} (h : part ∈ e.parts) :
    part.size < e.size := by
  have hle := size_le_sizeAll h
  rw [size_eq e]
  omega

/-- Induction over an expression by way of its parts. -/
theorem induction_parts {motive : TypeExpr ρ ι → Prop}
    (step : ∀ e, (∀ part ∈ e.parts, motive part) → motive e) (e : TypeExpr ρ ι) : motive e := by
  induction h : e.size using Nat.strongRecOn generalizing e with
  | ind n ih =>
    apply step
    intro part hpart
    exact ih part.size (h ▸ size_lt_of_mem_parts hpart) part rfl

end ApiEmit.TypeExpr
