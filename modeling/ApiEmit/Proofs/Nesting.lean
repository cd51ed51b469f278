/-
ApiEmit.Proofs.Nesting — how deep calls are nested, and that types are finite.

A recursion with no bound of its own ends where no chain of calls comes back to itself, as long as
it only ever goes to finitely many places: a chain without repetition is no longer than there are
places. The places here are the types that stand in a type or in a declaration, at any depth
(`Graph.within`), and there are no more of them than there are nodes.
-/
import ApiEmit.Proofs.Declaration
import ApiEmit.Proofs.Parts
import Mathlib.Data.List.Chain
import Mathlib.Data.List.Perm.Subperm

namespace ApiEmit

open Relation (ReflTransGen TransGen)

section

variable {α : Type} {calls : α → α → Prop} {a b : α} {n m : Nat}

/-! ## Chains of calls -/

/-- No chain of calls that starts with `a` has more than `n` members, `a` included. -/
def NestedWithin (calls : α → α → Prop) (n : Nat) (a : α) : Prop :=
  ∀ path, List.IsChain calls (a :: path) → (a :: path).length ≤ n

/-- Nothing that `a` leads to leads back to itself. -/
def MeetsNoCycle (calls : α → α → Prop) (a : α) : Prop :=
  ∀ b, ReflTransGen calls a b → ¬ TransGen calls b b

theorem not_nestedWithin_zero : ¬ NestedWithin calls 0 a := by
  intro h
  exact absurd (h [] (.singleton a)) (by simp)

/-- A call takes one level. -/
theorem nestedWithin_succ_iff :
    NestedWithin calls (n + 1) a ↔ ∀ b, calls a b → NestedWithin calls n b := by
  constructor
  · intro h b hb path hpath
    have hlength := h (b :: path) (.cons_cons hb hpath)
    simpa using hlength
  · intro h path hpath
    cases hpath with
    | singleton => simp
    | @cons_cons _ b path hb hpath =>
      have hlength := h b hb path hpath
      simpa using hlength

theorem NestedWithin.mono (h : NestedWithin calls n a) (hle : n ≤ m) : NestedWithin calls m a :=
  fun path hpath => (h path hpath).trans hle

/-- What is called is nested less deep. -/
theorem NestedWithin.exists_lt (h : NestedWithin calls n a) (hb : TransGen calls a b) :
    ∃ m < n, NestedWithin calls m b := by
  induction hb with
  | single hb =>
    cases n with
    | zero => exact absurd h not_nestedWithin_zero
    | succ n => exact ⟨n, Nat.lt_succ_self n, nestedWithin_succ_iff.mp h _ hb⟩
  | tail _ hc ih =>
    obtain ⟨m, hm, hnested⟩ := ih
    cases m with
    | zero => exact absurd hnested not_nestedWithin_zero
    | succ m => exact ⟨m, by omega, nestedWithin_succ_iff.mp hnested _ hc⟩

theorem NestedWithin.not_transGen_self (h : NestedWithin calls n a) : ¬ TransGen calls a a := by
  induction n using Nat.strongRecOn with
  | ind n ih =>
    intro hcycle
    obtain ⟨m, hm, hnested⟩ := h.exists_lt hcycle
    exact ih m hm hnested hcycle

/-- Where calls are nested to some depth only, they meet no cycle. -/
theorem NestedWithin.meetsNoCycle (h : NestedWithin calls n a) : MeetsNoCycle calls a := by
  intro b hb
  rcases Relation.reflTransGen_iff_eq_or_transGen.mp hb with rfl | hb
  · exact h.not_transGen_self
  · obtain ⟨m, _, hnested⟩ := h.exists_lt hb
    exact hnested.not_transGen_self

/-- A chain that meets no cycle has no member twice. -/
theorem MeetsNoCycle.nodup {path : List α} (h : MeetsNoCycle calls a)
    (hpath : List.IsChain calls (a :: path)) : (a :: path).Nodup := by
  have htrans : (a :: path).IsChain (TransGen calls) := hpath.imp fun _ _ => .single
  have hpairs : (a :: path).Pairwise (TransGen calls) := List.isChain_iff_pairwise.mp htrans
  refine hpairs.imp_of_mem fun {b c} hb _ hbc heq => ?_
  subst heq
  rcases List.mem_cons.mp hb with rfl | hb
  · exact h _ .refl hbc
  · exact h _ ((List.pairwise_cons.mp hpairs).1 _ hb).to_reflTransGen hbc

/-- **Without a cycle, calls are nested no deeper than there are places to go.** -/
theorem nestedWithin_of_meetsNoCycle {places : List α}
    (hplaces : ∀ b, ReflTransGen calls a b → b ∈ places) (h : MeetsNoCycle calls a) :
    NestedWithin calls places.length a := by
  intro path hpath
  have hpairs : (a :: path).Pairwise (ReflTransGen calls) :=
    List.isChain_iff_pairwise.mp (hpath.imp fun _ _ => .single)
  have hleads : ∀ b ∈ a :: path, ReflTransGen calls a b := by
    intro b hb
    rcases List.mem_cons.mp hb with rfl | hb
    · exact .refl
    · exact (List.pairwise_cons.mp hpairs).1 b hb
  exact ((h.nodup hpath).subperm fun b hb => hplaces b (hleads b hb)).length_le

/-- What is found within some depth, and then within any greater one, is found once. -/
theorem eq_of_found {β : Type} {found : Nat → Option β} {b b' : β}
    (hmono : ∀ {n m : Nat} {b : β}, found n = some b → n ≤ m → found m = some b)
    (h : found n = some b) (h' : found m = some b') : b = b' :=
  Option.some.inj ((hmono h (Nat.le_max_left n m)).symm.trans (hmono h' (Nat.le_max_right n m)))

end

/-! ## The nodes of a type -/

namespace TypeExpr

variable {ρ ι : Type} {e inner : TypeExpr ρ ι}

mutual

/-- An expression and all that stand within it, each before its parts. -/
def nodes : TypeExpr ρ ι → List (TypeExpr ρ ι)
  | .array element => .array element :: element.nodes
  | .record value => .record value :: value.nodes
  | .union variants => .union variants :: nodesAll variants
  | .model properties => .model properties :: nodesProperties properties
  | e => [e]

/-- The nodes of some expressions. -/
def nodesAll : List (TypeExpr ρ ι) → List (TypeExpr ρ ι)
  | [] => []
  | e :: es => e.nodes ++ nodesAll es

/-- The nodes of the types of some properties. -/
def nodesProperties : List (InlineProperty (TypeExpr ρ ι)) → List (TypeExpr ρ ι)
  | [] => []
  | ⟨_, type, _, _⟩ :: ps => type.nodes ++ nodesProperties ps

end

theorem nodesAll_eq (es : List (TypeExpr ρ ι)) : nodesAll es = es.flatMap nodes := by
  induction es with
  | nil => rfl
  | cons e es ih => rw [nodesAll, List.flatMap_cons, ih]

theorem nodesProperties_eq (ps : List (InlineProperty (TypeExpr ρ ι))) :
    nodesProperties ps = (ps.map (·.type)).flatMap nodes := by
  induction ps with
  | nil => rfl
  | cons p ps ih => rw [nodesProperties, List.map_cons, List.flatMap_cons, ih]

/-- The nodes of an expression are itself and those of its parts. -/
theorem nodes_eq (e : TypeExpr ρ ι) : e.nodes = e :: e.parts.flatMap nodes := by
  cases e with
  | union es => rw [nodes, nodesAll_eq, parts_union]
  | model ps => rw [nodes, nodesProperties_eq, parts_model]
  | array | record => simp [nodes]
  | ref | intrinsic | string | number | boolean => rfl

theorem mem_nodes_iff : inner ∈ e.nodes ↔ e.Contains inner := by
  induction e using induction_parts with
  | step e ih =>
    rw [nodes_eq, List.mem_cons, List.mem_flatMap, contains_iff]
    exact or_congr_right (exists_congr fun part => and_congr_right (ih part))

theorem length_flatMap_nodes_of_forall {es : List (TypeExpr ρ ι)}
    (h : ∀ e ∈ es, e.nodes.length = e.size) : (es.flatMap nodes).length = sizeAll es := by
  induction es with
  | nil => rfl
  | cons e es ih =>
    obtain ⟨he, hes⟩ := List.forall_mem_cons.mp h
    rw [List.flatMap_cons, List.length_append, he, ih hes, sizeAll]

/-- There are as many nodes as the size says. -/
theorem length_nodes (e : TypeExpr ρ ι) : e.nodes.length = e.size := by
  induction e using induction_parts with
  | step e ih =>
    rw [nodes_eq, List.length_cons, length_flatMap_nodes_of_forall ih, size_eq]

theorem length_flatMap_nodes (es : List (TypeExpr ρ ι)) :
    (es.flatMap nodes).length = sizeAll es :=
  length_flatMap_nodes_of_forall fun e _ => length_nodes e

end TypeExpr

/-! ## The types within reach of a type -/

namespace Graph

variable {g : Graph} {t t' : Ty}

/-- A type leads to its parts, and a reference to what the declaration is made of. -/
inductive Opens (g : Graph) : Ty → Ty → Prop
  | part {t t' : Ty} (h : t' ∈ t.parts) : Opens g t t'
  | declared {id : DeclId} {d : Declaration} {t : Ty} (hd : g.declaration? id = some d)
      (h : t ∈ d.types) : Opens g (.ref id) t

/-- The types that stand in a type or in a declaration. -/
def within (g : Graph) (t : Ty) : List Ty :=
  t.nodes ++ g.declarations.flatMap fun entry => entry.2.types.flatMap TypeExpr.nodes

theorem mem_within_iff : t' ∈ g.within t ↔ t.Contains t' ∨
    ∃ entry ∈ g.declarations, ∃ stored ∈ entry.2.types, stored.Contains t' := by
  simp only [within, List.mem_append, List.mem_flatMap, TypeExpr.mem_nodes_iff]

/-- What stands there leads to nothing else. -/
theorem mem_within_of_reflTransGen (h : ReflTransGen g.Opens t t') : t' ∈ g.within t := by
  induction h with
  | refl => exact mem_within_iff.mpr (.inl (TypeExpr.Contains.refl t))
  | tail _ hopens ih =>
    rw [mem_within_iff] at ih ⊢
    cases hopens with
    | part h =>
      rcases ih with ih | ⟨entry, hentry, stored, hstored, ih⟩
      · exact .inl (ih.tail h)
      · exact .inr ⟨entry, hentry, stored, hstored, ih.tail h⟩
    | declared hd h =>
      exact .inr ⟨(_, _), mem_declarations_of_declaration? hd, _, h, TypeExpr.Contains.refl _⟩

/-- There are no more types in reach than there are nodes. -/
theorem length_within_le (g : Graph) (t : Ty) : (g.within t).length ≤ t.size + g.size := by
  have hdeclared : ∀ declarations : List (DeclId × Declaration),
      (declarations.flatMap fun entry => entry.2.types.flatMap TypeExpr.nodes).length ≤
        declarations.foldr (fun d n => d.2.size + n) 0 := by
    intro declarations
    induction declarations with
    | nil => simp
    | cons entry rest ih =>
      rw [List.flatMap_cons, List.length_append, TypeExpr.length_flatMap_nodes, List.foldr_cons,
        Declaration.size]
      omega
  rw [within, List.length_append, TypeExpr.length_nodes, Graph.size]
  exact Nat.add_le_add_left (hdeclared _) _

/-- A recursion that only ever opens types and meets no cycle is nested no deeper than there are
nodes. -/
theorem nestedWithin_size {calls : Ty → Ty → Prop} (hcalls : ∀ t t', calls t t' → g.Opens t t')
    (h : MeetsNoCycle calls t) : NestedWithin calls (t.size + g.size) t := by
  have hplaces : ∀ t', ReflTransGen calls t t' → t' ∈ g.within t := fun t' ht' =>
    mem_within_of_reflTransGen (ReflTransGen.mono hcalls _ _ ht')
  exact (nestedWithin_of_meetsNoCycle hplaces h).mono (length_within_le g t)

end Graph

/-- What a name of the global namespace refers to. -/
def atRoot (name : String) : Ty := .ref ⟨.root, name⟩

end ApiEmit
