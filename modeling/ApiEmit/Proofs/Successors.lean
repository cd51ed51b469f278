/-
ApiEmit.Proofs.Successors — lists that follow a relation under which nothing has two successors.

Such a list can go on in one way only (`prefix_or_prefix`). If it holds what its members lead to, it
holds all that its first member leads to (`mem_iff_leads`), and its end tells where the cycles are:
there are none if the last member has no successor (`no_successor_iff`), and otherwise they are one,
from the successor of the last member up to that member (`onCycle_iff`).
-/
import Mathlib.Data.List.Chain
import Mathlib.Logic.Relation

namespace ApiEmit.Successors

open Relation (ReflTransGen TransGen)

variable {α : Type} {R : α → α → Prop} {l l' front back : List α} {a b c : α}

/-! ## Along a list -/

/-- What stands in front leads to what stands behind. -/
theorem pairwise_leads (h : l.IsChain R) : l.Pairwise (TransGen R) :=
  List.isChain_iff_pairwise.mp (h.imp fun _ _ => TransGen.single)

theorem leads_of_head (h : l.IsChain R) (hhead : l.head? = some a) (hb : b ∈ l) :
    ReflTransGen R a b := by
  refine h.induction (ReflTransGen R a) l (fun _ _ hstep hlead => hlead.tail hstep) ?_ b hb
  intro hne
  rw [List.head?_eq_some_head hne, Option.some.injEq] at hhead
  rw [hhead]

theorem leads_to_last (h : l.IsChain R) (hlast : l.getLast? = some b) (ha : a ∈ l) :
    ReflTransGen R a b := by
  refine h.backwards_induction (ReflTransGen R · b) l (fun _ _ hstep hlead => .head hstep hlead) ?_
    a ha
  intro hne
  rw [List.getLast?_eq_some_getLast hne, Option.some.injEq] at hlast
  rw [hlast]

/-- A member is followed by a successor, or it is the last. -/
theorem successor_mem_or_last (h : l.IsChain R) (ha : a ∈ l) :
    (∃ b ∈ l, R a b) ∨ l.getLast? = some a := by
  obtain ⟨front, back, rfl⟩ := List.append_of_mem ha
  cases back with
  | nil => exact .inr List.getLast?_concat
  | cons b back => exact .inl ⟨b, by simp, (List.isChain_append_cons_cons.mp h).2.1⟩

/-- What holds the successors of its members is never left. -/
theorem mem_of_leads (hclosed : ∀ a ∈ l, ∀ b, R a b → b ∈ l) (ha : a ∈ l)
    (h : ReflTransGen R a b) : b ∈ l := by
  induction h with
  | refl => exact ha
  | tail _ hstep ih => exact hclosed _ ih _ hstep

theorem mem_iff_leads (h : l.IsChain R) (hclosed : ∀ a ∈ l, ∀ b, R a b → b ∈ l)
    (hhead : l.head? = some a) : b ∈ l ↔ ReflTransGen R a b :=
  ⟨leads_of_head h hhead, mem_of_leads hclosed (List.mem_of_head? hhead)⟩

/-! ## One successor at most -/

/-- Of two lists with one start, one goes on where the other ends. -/
theorem prefix_or_prefix (hR : Relator.RightUnique R) (h : l.IsChain R) (h' : l'.IsChain R)
    (hhead : l.head? = l'.head?) : l <+: l' ∨ l' <+: l := by
  induction l generalizing l' with
  | nil => exact .inl List.nil_prefix
  | cons a rest ih =>
    obtain _ | ⟨a', rest'⟩ := l'
    · exact .inr List.nil_prefix
    · obtain rfl : a = a' := Option.some.inj hhead
      simp only [List.prefix_cons_inj]
      cases rest with
      | nil => exact .inl List.nil_prefix
      | cons b rest =>
        obtain _ | ⟨b', rest'⟩ := rest'
        · exact .inr List.nil_prefix
        · obtain ⟨hb, hrest⟩ := List.isChain_cons_cons.mp h
          obtain ⟨hb', hrest'⟩ := List.isChain_cons_cons.mp h'
          exact ih hrest hrest' (congrArg some (hR hb hb'))

/-- What a cycle leads to leads back to it. -/
theorem leads_back (hR : Relator.RightUnique R) (h : TransGen R a a) (hb : ReflTransGen R a b) :
    ReflTransGen R b a := by
  induction hb with
  | refl => exact .refl
  | @tail b next _ hnext ih =>
    -- the first step of the way back is the only one there is
    rcases ih.cases_head with rfl | ⟨other, hother, hback⟩
    · obtain ⟨other, hother, hback⟩ := TransGen.head'_iff.mp h
      rwa [hR hnext hother]
    · rwa [hR hnext hother]

/-- What a cycle leads to is on it. -/
theorem onCycle_of_leads (hR : Relator.RightUnique R) (h : TransGen R a a)
    (hb : ReflTransGen R a b) : TransGen R b b :=
  .trans_right (leads_back hR h hb) (h.trans_left hb)

/-- The last member has no successor exactly if no member is on a cycle. -/
theorem no_successor_iff (hR : Relator.RightUnique R) (h : l.IsChain R)
    (hclosed : ∀ a ∈ l, ∀ b, R a b → b ∈ l) (hlast : l.getLast? = some a) :
    (∀ b, ¬ R a b) ↔ ∀ c ∈ l, ¬ TransGen R c c := by
  constructor
  · intro hend c hc hcycle
    have hcycle' : TransGen R a a := onCycle_of_leads hR hcycle (leads_to_last h hlast hc)
    obtain ⟨b, hb, _⟩ := TransGen.head'_iff.mp hcycle'
    exact hend b hb
  · intro hacyclic b hb
    have ha : a ∈ l := List.mem_of_getLast? hlast
    exact hacyclic a ha (.head' hb (leads_to_last h hlast (hclosed a ha b hb)))

/-- If the last member leads back into the list, the members on a cycle are those from there on. -/
theorem onCycle_iff (hR : Relator.RightUnique R) (h : (front ++ b :: back).IsChain R)
    (hlast : (front ++ b :: back).getLast? = some a) (hback : R a b)
    (hc : c ∈ front ++ b :: back) : TransGen R c c ↔ c ∈ b :: back := by
  have hloop : (b :: back).IsChain R := h.right_of_append
  rw [List.getLast?_append_of_ne_nil _ (List.cons_ne_nil b back)] at hlast
  constructor
  · intro hcycle
    have hclosed : ∀ x ∈ b :: back, ∀ y, R x y → y ∈ b :: back := by
      intro x hx y hy
      rcases successor_mem_or_last hloop hx with ⟨y', hmem, hy'⟩ | hend
      · rwa [hR hy hy']
      · obtain rfl : a = x := Option.some.inj (hlast.symm.trans hend)
        exact hR hback hy ▸ List.mem_cons_self
    rcases List.mem_append.mp hc with hfront | hmem
    · have hlead : TransGen R c b :=
        (List.pairwise_append.mp (pairwise_leads h)).2.2 c hfront b List.mem_cons_self
      exact mem_of_leads hclosed List.mem_cons_self (leads_back hR hcycle hlead.to_reflTransGen)
    · exact hmem
  · intro hmem
    have hround : TransGen R c b := .tail' (leads_to_last hloop hlast hmem) hback
    exact hround.trans_left (leads_of_head hloop rfl hmem)

end ApiEmit.Successors
