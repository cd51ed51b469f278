/-
ApiEmit.Proofs.ScalarWalk — the walk from a scalar along bases, and that it ends.

`ScalarWalk.Step` is one round of the walk, with no bound on how many there are. Each round leaves
fewer declarations that the walk has not been to, so none goes on for ever (`wellFounded_step`), and
`Follows` is what a round keeps. Where the walk stops it has gathered the one list that
`IsScalarChain` allows, which is the chain of the scalar (`endsWith_scalarChain`).

In a loaded program bases are scalars, so nothing cuts a chain short: it holds all that bases lead
to, it ends at a scalar without a base unless bases form a cycle, and then it goes round that cycle
once, wherever it has come into it (`scalarChain_alongBases`).
-/
import ApiEmit.Proofs.ScalarChains
import ApiEmit.Proofs.WellFormed
import Mathlib.Data.List.Perm.Subperm

namespace ApiEmit

open Relation (ReflTransGen TransGen)

namespace Graph

/-- A scalar has a base, whatever that is. -/
def HasBase (g : Graph) (s b : DeclId) : Prop :=
  (g.scalar? s).bind (·.base) = some b

/-- The scalars of a program. -/
def scalarIds (g : Graph) : List DeclId :=
  (g.declarations.map (·.1)).filter fun id => (g.scalar? id).isSome

/-- A scalar is on a cycle of bases. -/
def OnBaseCycle (g : Graph) (s : DeclId) : Prop :=
  TransGen g.HasBase s s

/-- A list that goes from a scalar along bases as far as they lead. -/
structure AlongBases (g : Graph) (id : DeclId) (chain : List DeclId) : Prop where
  head : chain.head? = some id
  nodup : chain.Nodup
  isSome : ∀ s ∈ chain, (g.scalar? s).isSome = true
  isChain : chain.IsChain g.HasBase
  /-- It holds exactly what bases lead to. -/
  mem_iff : ∀ s, s ∈ chain ↔ ReflTransGen g.HasBase id s
  /-- It has no more members than there are scalars. -/
  length_le : chain.length ≤ g.scalarIds.length
  /-- The last scalar has no base exactly if there is no cycle. -/
  no_base_iff : ∀ s, chain.getLast? = some s →
    ((∀ b, ¬ g.HasBase s b) ↔ ∀ m ∈ chain, ¬ g.OnBaseCycle m)
  /-- Else its base is in the list, and from there on the list is the cycle. -/
  onCycle_iff : ∀ s b, chain.getLast? = some s → g.HasBase s b →
    ∃ front back, chain = front ++ b :: back ∧ ∀ m ∈ chain, g.OnBaseCycle m ↔ m ∈ b :: back

end Graph

/-! ## The walk -/

/-- A walk on its way: the scalars that it has been to, in their order, and where it goes next. -/
structure ScalarWalk where
  chain : List DeclId
  next : Option DeclId

namespace ScalarWalk

/-- The walk from a scalar, before its first round. -/
def start (id : DeclId) : ScalarWalk := ⟨[], some id⟩

/-- One round: a scalar that the walk has not been to comes last in its list, and its base is
next. -/
inductive Step (g : Graph) : ScalarWalk → ScalarWalk → Prop
  | visit {chain : List DeclId} {id : DeclId} {scalar : Scalar} (hnew : id ∉ chain)
      (h : g.scalar? id = some scalar) : Step g ⟨chain, some id⟩ ⟨chain ++ [id], scalar.base⟩

/-- A walk that has no further round. -/
def Stopped (g : Graph) (w : ScalarWalk) : Prop :=
  ∀ w', ¬ Step g w w'

/-- The walk from a scalar ends, whichever rounds it makes, and has gathered one list then. -/
structure EndsWith (g : Graph) (id : DeclId) (chain : List DeclId) : Prop where
  terminates : Acc (fun w' w => Step g w w') (start id)
  exists_stopped : ∃ w, ReflTransGen (Step g) (start id) w ∧ Stopped g w
  gathers : ∀ w, ReflTransGen (Step g) (start id) w → Stopped g w → w.chain = chain

variable {g : Graph} {id s b : DeclId} {w w' : ScalarWalk}

/-- A walk stops where nothing is next, or something that it has been to, or that is no scalar. -/
theorem stopped_iff :
    Stopped g w ↔ ∀ id, w.next = some id → id ∈ w.chain ∨ g.scalar? id = none := by
  constructor
  · intro h id hnext
    by_contra hgo
    rw [not_or] at hgo
    obtain ⟨scalar, hscalar⟩ := Option.ne_none_iff_exists'.mp hgo.2
    obtain ⟨chain, next⟩ := w
    obtain rfl : next = some id := hnext
    exact h _ (.visit hgo.1 hscalar)
  · intro h w' hstep
    cases hstep with
    | visit hnew hscalar =>
      rcases h _ rfl with hseen | hnone
      · exact hnew hseen
      · cases hscalar.symm.trans hnone

/-! ## It ends -/

/-- A round leaves fewer declarations that the walk has not been to. -/
theorem Step.unseen_lt (h : Step g w w') :
    (Graph.unseen g w'.chain).length < (Graph.unseen g w.chain).length := by
  cases h with
  | @visit chain id scalar hnew h =>
    -- what is left does not depend on the order in which the walk has come to the rest
    have hsame : Graph.unseen g (chain ++ [id]) = Graph.unseen g (id :: chain) :=
      List.filter_congr fun _ _ => by simp [or_comm]
    rw [hsame]
    exact Graph.length_filter_not_mem_cons_lt (Graph.mem_declared_of_scalar? h) hnew

theorem wellFounded_step (g : Graph) : WellFounded fun w' w => Step g w w' :=
  Subrelation.wf Step.unseen_lt
    (measure fun w : ScalarWalk => (Graph.unseen g w.chain).length).wf

/-- From everywhere the walk comes to a stop. -/
theorem exists_stopped (g : Graph) (w : ScalarWalk) :
    ∃ w', ReflTransGen (Step g) w w' ∧ Stopped g w' := by
  induction w using (wellFounded_step g).induction with
  | h w ih =>
    by_cases hstop : Stopped g w
    · exact ⟨w, .refl, hstop⟩
    · obtain ⟨w', hstep⟩ : ∃ w', Step g w w' := by simpa [Stopped] using hstop
      obtain ⟨last, hrun, hlast⟩ := ih w' hstep
      exact ⟨last, .head hstep hrun, hlast⟩

/-! ## What it gathers -/

/-- What holds all along the walk from a scalar. -/
structure Follows (g : Graph) (id : DeclId) (w : ScalarWalk) : Prop where
  /-- What comes first is where the walk has started. -/
  head : w.chain.head?.or w.next = some id
  isChain : w.chain.IsChain (Graph.Restricts g)
  nodup : w.chain.Nodup
  isSome : ∀ s ∈ w.chain, (g.scalar? s).isSome = true
  /-- What is next is the base of what came last. -/
  next : ∀ s, w.chain.getLast? = some s → (g.scalar? s).bind (·.base) = w.next

theorem follows_start (g : Graph) (id : DeclId) : Follows g id (start id) where
  head := rfl
  isChain := .nil
  nodup := List.nodup_nil
  isSome := nofun
  next := nofun

namespace Follows

theorem step (h : Follows g id w) (hstep : Step g w w') : Follows g id w' := by
  cases hstep with
  | @visit chain x scalar hnew hx =>
    have hsome : (g.scalar? x).isSome = true := by rw [hx, Option.isSome_some]
    constructor
    case head => rw [List.head?_append, List.head?_singleton, h.head, Option.some_or]
    case isChain =>
      refine h.isChain.append (.singleton x) fun s hs y hy => ?_
      obtain rfl : x = y := Option.some.inj hy
      exact ⟨h.next s hs, hsome⟩
    case nodup =>
      rw [List.nodup_append_comm]
      exact List.nodup_cons.mpr ⟨hnew, h.nodup⟩
    case isSome =>
      intro s hs
      rcases List.mem_append.mp hs with hs | hs
      · exact h.isSome s hs
      · rwa [List.mem_singleton.mp hs]
    case next =>
      intro s hs
      obtain rfl : x = s := Option.some.inj (List.getLast?_concat.symm.trans hs)
      rw [hx, Option.bind_some]

theorem run (h : Follows g id w) (hrun : ReflTransGen (Step g) w w') : Follows g id w' := by
  induction hrun with
  | refl => exact h
  | tail _ hstep ih => exact ih.step hstep

/-- Where the walk stops it has gathered a chain. -/
theorem isScalarChain (h : Follows g id w) (hstop : Stopped g w) :
    Graph.IsScalarChain g id w.chain where
  head := by
    have hhead := h.head
    cases hfirst : w.chain.head? with
    | none =>
      rw [hfirst, Option.none_or] at hhead
      have hnone : g.scalar? id = none := by
        refine (stopped_iff.mp hstop id hhead).resolve_left fun hmem => ?_
        rw [List.head?_eq_none_iff.mp hfirst] at hmem
        cases hmem
      simp [hnone]
    | some first =>
      rw [hfirst, Option.some_or] at hhead
      obtain rfl : first = id := Option.some.inj hhead
      rw [if_pos (h.isSome first (List.mem_of_head? hfirst))]
  isChain := h.isChain
  nodup := h.nodup
  closed := by
    intro s hs b hb
    -- only the last scalar can restrict what the walk has not been to, and that is next
    rcases Successors.successor_mem_or_last h.isChain hs with ⟨b', hmem, hb'⟩ | hlast
    · rwa [hb.unique hb']
    · have hnext : w.next = some b := (h.next s hlast).symm.trans hb.1
      refine (stopped_iff.mp hstop b hnext).resolve_right fun hnone => ?_
      rw [Graph.Restricts, hnone] at hb
      cases hb.2

end Follows

/-- **The walk along bases ends**, from everything and in every program, and it has gathered the
chain. -/
theorem endsWith_scalarChain (g : Graph) (id : DeclId) : EndsWith g id (g.scalarChain id) where
  terminates := (wellFounded_step g).apply _
  exists_stopped := exists_stopped g _
  gathers := fun _ hrun hstop =>
    (((follows_start g id).run hrun).isScalarChain hstop).unique
      (Graph.isScalarChain_scalarChain g id)

end ScalarWalk

/-! ## What bases lead to -/

namespace Graph

variable {doc : Document} {g : Graph} {id s b : DeclId} {chain : List DeclId}

theorem hasBase_rightUnique (g : Graph) : Relator.RightUnique g.HasBase :=
  fun _ _ _ h h' => Option.some.inj (h.symm.trans h')

theorem mem_scalarIds_iff : id ∈ g.scalarIds ↔ (g.scalar? id).isSome = true := by
  rw [scalarIds, List.mem_filter]
  refine and_iff_right_of_imp fun hsome => ?_
  obtain ⟨scalar, h⟩ := Option.isSome_iff_exists.mp hsome
  exact mem_declared_of_scalar? h

/-- In a loaded program bases are scalars. -/
theorem restricts_of_hasBase (h : Graph.ofDocument doc = .ok g) (hb : g.HasBase s b) :
    Restricts g s b := by
  obtain ⟨scalar, hs, hbase⟩ := Option.bind_eq_some_iff.mp hb
  obtain ⟨base, hscalar⟩ := exists_scalar_of_base h hs hbase
  exact ⟨hb, by rw [hscalar, Option.isSome_some]⟩

/-- What bases lead to from a loaded scalar are scalars. -/
theorem isSome_of_leads (h : Graph.ofDocument doc = .ok g) (hid : (g.scalar? id).isSome = true)
    (hs : ReflTransGen g.HasBase id s) : (g.scalar? s).isSome = true := by
  cases hs with
  | refl => exact hid
  | tail _ hb => exact (restricts_of_hasBase h hb).2

/-- In a loaded program a chain goes along bases as far as they lead. -/
theorem IsScalarChain.alongBases (h : Graph.ofDocument doc = .ok g)
    (hid : (g.scalar? id).isSome = true) (hchain : IsScalarChain g id chain) :
    AlongBases g id chain := by
  have hhead : chain.head? = some id := by rw [hchain.head, if_pos hid]
  have hstep : chain.IsChain g.HasBase := hchain.isChain.imp fun _ _ hb => hb.1
  have hclosed : ∀ s ∈ chain, ∀ b, g.HasBase s b → b ∈ chain := fun s hs b hb =>
    hchain.closed s hs b (restricts_of_hasBase h hb)
  have hmem : ∀ s, s ∈ chain ↔ ReflTransGen g.HasBase id s := fun _ =>
    Successors.mem_iff_leads hstep hclosed hhead
  have hsome : ∀ s ∈ chain, (g.scalar? s).isSome = true := fun s hs =>
    isSome_of_leads h hid ((hmem s).mp hs)
  refine ⟨hhead, hchain.nodup, hsome, hstep, hmem, ?length_le, fun s hlast => ?no_base_iff,
    fun s b hlast hb => ?onCycle_iff⟩
  case length_le =>
    have hsub : chain ⊆ g.scalarIds := fun s hs => mem_scalarIds_iff.mpr (hsome s hs)
    exact (hchain.nodup.subperm hsub).length_le
  case no_base_iff =>
    exact Successors.no_successor_iff (hasBase_rightUnique g) hstep hclosed hlast
  case onCycle_iff =>
    have hback : b ∈ chain := hclosed s (List.mem_of_getLast? hlast) b hb
    obtain ⟨front, back, rfl⟩ := List.append_of_mem hback
    exact ⟨front, back, rfl, fun m hm =>
      Successors.onCycle_iff (hasBase_rightUnique g) hstep hlast hb hm⟩

/-- **The chain of a scalar is complete and finite.** From every scalar of a loaded program the walk
along bases ends and has gathered the chain, and the chain goes along bases as far as they lead:
nothing comes twice in it, nothing that bases lead to is missing, and its last scalar has no base
unless bases form a cycle. -/
theorem scalarChain_alongBases (h : Graph.ofDocument doc = .ok g)
    (hid : (g.scalar? id).isSome = true) :
    ScalarWalk.EndsWith g id (g.scalarChain id) ∧ AlongBases g id (g.scalarChain id) := by
  have hends : ScalarWalk.EndsWith g id (g.scalarChain id) := ScalarWalk.endsWith_scalarChain g id
  have hchain : IsScalarChain g id (g.scalarChain id) := isScalarChain_scalarChain g id
  exact ⟨hends, hchain.alongBases h hid⟩

/-- Scales whose tares restrict weights, which restrict masses, which restrict weights again. -/
def scales : Document :=
  { root :=
      { name := ""
        scalars := [⟨"Mass", none, some "Units.Weight", {}⟩]
        namespaces := [
          { name := "Units"
            scalars := [⟨"Weight", none, some "Mass", {}⟩, ⟨"Tare", none, some "Weight", {}⟩] }] }
    diagnostics := [] }

theorem scalarChain_alongBases_scales : ∃ g, Graph.ofDocument scales = .ok g ∧
    ∃ tare weight mass, (g.scalar? tare).isSome = true ∧
      g.scalarChain tare = [tare, weight, mass] ∧ g.HasBase mass weight ∧
      ScalarWalk.EndsWith g tare (g.scalarChain tare) ∧
      AlongBases g tare (g.scalarChain tare) := by
  have hg : Graph.ofDocument scales = .ok _ := rfl
  exact ⟨_, hg, ⟨⟨[⟨1, "Units"⟩]⟩, "Tare"⟩, ⟨⟨[⟨1, "Units"⟩]⟩, "Weight"⟩, ⟨.root, "Mass"⟩, rfl,
    by decide, rfl, scalarChain_alongBases hg rfl⟩

end Graph

end ApiEmit
