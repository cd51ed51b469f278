/-
ApiEmit.Proofs.BasesFirst — a model stands behind its base, except once on each cycle.

A model is placed together with those of its bases that are not placed yet, the farthest first. The
chain of bases ends where there is no base among the models, or where the base has been visited, and
that means one of two things: it is placed already, or the chain has come back to itself. Only the
second leaves a model in front of its base, and then the model and its base are on a cycle of bases
that the chain has gone round once. `Settled` is what holds after each model: what is placed is
closed under bases, so a cycle is placed by one chain and has one model in front of its base.
-/
import ApiEmit.Proofs.BaseOrder
import ApiEmit.Proofs.Loaded
import ApiEmit.Proofs.Successors
import Mathlib.Data.List.Chain
import Mathlib.Logic.Relation

namespace ApiEmit.Pydantic

open Relation (ReflTransGen TransGen)

variable {g : Graph} {decls placed order chain : List DeclId} {id m b e e' : DeclId}

/-! ## Bases among some declarations -/

/-- Among some declarations a model has another for its base. -/
def Extends (g : Graph) (decls : List DeclId) (m b : DeclId) : Prop :=
  m ∈ decls ∧ b ∈ decls ∧ (g.model? b).isSome = true ∧ (g.model? m).bind (·.base) = some b

/-- A model that is its own base by way of others, or directly. -/
def OnCycle (g : Graph) (decls : List DeclId) (m : DeclId) : Prop :=
  TransGen (Extends g decls) m m

/-- Two models each of which leads to the other by way of bases. -/
def SameCycle (g : Graph) (decls : List DeclId) (m e : DeclId) : Prop :=
  ReflTransGen (Extends g decls) m e ∧ ReflTransGen (Extends g decls) e m

/-- In some order a model does not stand behind its base, although the base is there. -/
def IsException (g : Graph) (decls order : List DeclId) (m : DeclId) : Prop :=
  ∃ b, Extends g decls m b ∧ ¬ order.idxOf b < order.idxOf m

/-- The models among some declarations. -/
def modelsOf (g : Graph) (decls : List DeclId) : List DeclId :=
  decls.filter fun id => (g.model? id).isSome

theorem mem_modelsOf_iff : id ∈ modelsOf g decls ↔ id ∈ decls ∧ (g.model? id).isSome = true :=
  List.mem_filter

theorem Extends.mem_modelsOf (h : Extends g decls m b) : b ∈ modelsOf g decls :=
  mem_modelsOf_iff.mpr ⟨h.2.1, h.2.2.1⟩

/-- A model has one base. -/
theorem Extends.unique (h : Extends g decls m b) (h' : Extends g decls m e) : b = e :=
  Option.some.inj (h.2.2.2.symm.trans h'.2.2.2)

/-- What a model on a cycle leads to leads back to it. -/
theorem OnCycle.leads_back (h : OnCycle g decls m) (he : ReflTransGen (Extends g decls) m e) :
    ReflTransGen (Extends g decls) e m :=
  Successors.leads_back (fun _ _ _ => Extends.unique) h he

/-! ## The chain of a model -/

/-- The chain of a model, by the rules that end it: the model has been visited, or it has no base
among the models. -/
inductive Chain (g : Graph) (decls : List DeclId) : List DeclId → DeclId → List DeclId → Prop
  | visited {placed : List DeclId} {id : DeclId} (h : id ∈ placed) : Chain g decls placed id []
  | root {placed : List DeclId} {id : DeclId} (h : id ∉ placed)
      (hroot : ∀ b, ¬ Extends g decls id b) : Chain g decls placed id [id]
  | base {placed rest : List DeclId} {id b : DeclId} (h : id ∉ placed)
      (hb : Extends g decls id b) (hrest : Chain g decls (id :: placed) b rest) :
      Chain g decls placed id (id :: rest)

/-- The models that are not placed. -/
def unplaced (g : Graph) (decls placed : List DeclId) : List DeclId :=
  (modelsOf g decls).filter (· ∉ placed)

theorem length_unplaced_cons_lt (hid : id ∈ modelsOf g decls) (hplaced : id ∉ placed) :
    (unplaced g decls (id :: placed)).length < (unplaced g decls placed).length :=
  Graph.length_filter_not_mem_cons_lt hid hplaced

/-- A chain is never cut short: as many steps as there are models not placed are enough. -/
theorem chain_baseChain {steps : Nat} (hid : id ∈ modelsOf g decls)
    (hsteps : (unplaced g decls placed).length ≤ steps) :
    Chain g decls placed id (baseChain g (modelsOf g decls) steps placed id) := by
  induction steps generalizing placed id with
  | zero =>
    have hnone : unplaced g decls placed = [] := List.length_eq_zero_iff.mp (by omega)
    have hplaced : id ∈ placed := by
      simpa using List.filter_eq_nil_iff.mp hnone id hid
    exact .visited hplaced
  | succ steps ih =>
    rw [baseChain]
    by_cases hplaced : id ∈ placed
    · simp only [List.contains_iff_mem.mpr hplaced, if_true]
      exact .visited hplaced
    · have hdecl := (mem_modelsOf_iff.mp hid).1
      rw [if_neg (by simpa using hplaced)]
      cases hbase : (g.model? id).bind (·.base) with
      | none => exact .root hplaced fun b hb => by simp [hb.2.2.2] at hbase
      | some b =>
        by_cases hb : b ∈ modelsOf g decls
        · have hextends : Extends g decls id b :=
            ⟨hdecl, (mem_modelsOf_iff.mp hb).1, (mem_modelsOf_iff.mp hb).2, hbase⟩
          have hless := length_unplaced_cons_lt hid hplaced
          simp only [List.contains_iff_mem.mpr hb, if_true]
          exact .base hplaced hextends (ih hb (by omega))
        · simp only [List.contains_eq_mem, hb, decide_false, Bool.false_eq_true, if_false]
          refine .root hplaced fun other hother => hb ?_
          rw [← Option.some.inj (hother.2.2.2.symm.trans hbase)]
          exact hother.mem_modelsOf

/-- A chain goes from each model to its base. -/
theorem Chain.isChain (h : Chain g decls placed id chain) : chain.IsChain (Extends g decls) := by
  induction h with
  | visited => exact .nil
  | root => exact .singleton _
  | @base _ _ _ b _ hb hrest ih =>
    cases hrest with
    | visited => exact .singleton _
    | root => exact .cons_cons hb ih
    | base => exact .cons_cons hb ih

/-- In a chain a model is followed by its base, or it comes last and its base has been visited. -/
theorem Chain.base_next (h : Chain g decls placed id chain) (hm : m ∈ chain)
    (hb : Extends g decls m b) :
    (∃ front back, chain = front ++ m :: b :: back) ∨
      (chain.getLast? = some m ∧ (b ∈ placed ∨ b ∈ chain)) := by
  induction h with
  | visited => cases hm
  | root _ hroot =>
    rw [List.mem_singleton.mp hm] at hb
    exact absurd hb (hroot b)
  | @base placed rest id next hplaced hnext hrest ih =>
    rcases List.mem_cons.mp hm with rfl | hm
    · obtain rfl := hb.unique hnext
      cases hrest with
      | visited hvisited =>
        refine .inr ⟨rfl, ?_⟩
        rcases List.mem_cons.mp hvisited with rfl | hold
        · exact .inr List.mem_cons_self
        · exact .inl hold
      | root => exact .inl ⟨[], _, rfl⟩
      | base => exact .inl ⟨[], _, rfl⟩
    · rcases ih hm with ⟨front, back, rfl⟩ | ⟨hlast, hvisited⟩
      · exact .inl ⟨id :: front, back, rfl⟩
      · refine .inr ⟨?_, ?_⟩
        · rw [List.getLast?_cons_of_ne_nil (List.ne_nil_of_mem hm), hlast]
        · rcases hvisited with hvisited | hmem
          · rcases List.mem_cons.mp hvisited with rfl | hold
            · exact .inr List.mem_cons_self
            · exact .inl hold
          · exact .inr (List.mem_cons_of_mem _ hmem)

/-! ## Placing one model after the other -/

/-- The order in which models are placed, by the rules: each one behind the rest of its chain. -/
inductive Places (g : Graph) (decls : List DeclId) :
    List DeclId → List DeclId → List DeclId → Prop
  | done {placed : List DeclId} : Places g decls placed [] placed
  | next {placed ids chain order : List DeclId} {id : DeclId}
      (hchain : Chain g decls placed id chain)
      (hrest : Places g decls (placed ++ chain.reverse) ids order) :
      Places g decls placed (id :: ids) order

theorem idxOf_lt_idxOf {front back : List DeclId} (h : (front ++ b :: back).Nodup) (hm : m ∈ back) :
    (front ++ b :: back).idxOf b < (front ++ b :: back).idxOf m := by
  have hfront : ∀ a ∈ front, a ≠ b ∧ a ≠ m := fun a ha =>
    ⟨(List.nodup_append.mp h).2.2 a ha b List.mem_cons_self,
      (List.nodup_append.mp h).2.2 a ha m (List.mem_cons_of_mem _ hm)⟩
  have hne : b ≠ m := by
    rintro rfl
    exact (List.nodup_cons.mp h.of_append_right).1 hm
  rw [List.idxOf_append_of_notMem fun hmem => (hfront b hmem).1 rfl,
    List.idxOf_append_of_notMem fun hmem => (hfront m hmem).2 rfl,
    List.idxOf_cons_self, List.idxOf_cons_ne _ hne]
  omega

/-- What is placed is closed under bases, and the models that do not stand behind their bases are on
cycles, one on each. -/
structure Settled (g : Graph) (decls placed : List DeclId) : Prop where
  nodup : placed.Nodup
  closed : ∀ m ∈ placed, ∀ b, Extends g decls m b → b ∈ placed
  onCycle : ∀ m ∈ placed, IsException g decls placed m → OnCycle g decls m
  unique : ∀ m ∈ placed, ∀ e ∈ placed, IsException g decls placed m →
    IsException g decls placed e → SameCycle g decls m e → m = e

namespace Settled

theorem mem_of_leads (h : Settled g decls placed) (hm : m ∈ placed)
    (he : ReflTransGen (Extends g decls) m e) : e ∈ placed :=
  Successors.mem_of_leads h.closed hm he

/-- What is placed later makes no difference to what is placed. -/
theorem isException_append_iff (h : Settled g decls placed) (hm : m ∈ placed)
    {later : List DeclId} :
    IsException g decls (placed ++ later) m ↔ IsException g decls placed m := by
  refine exists_congr fun b => and_congr_right fun hb => ?_
  rw [List.idxOf_append_of_mem hm, List.idxOf_append_of_mem (h.closed m hm b hb)]

/-- Of a chain that is placed only the last model can stand in front of its base, and it does only
if the chain comes back to itself. -/
theorem last_of_isException (hchain : Chain g decls placed id chain)
    (hnodup : (placed ++ chain.reverse).Nodup) (hm : m ∈ chain)
    (he : IsException g decls (placed ++ chain.reverse) m) :
    chain.getLast? = some m ∧ ∃ b ∈ chain, Extends g decls m b := by
  obtain ⟨b, hb, hbehind⟩ := he
  rcases hchain.base_next hm hb with ⟨front, back, rfl⟩ | ⟨hlast, hplaced | hmem⟩
  · exfalso
    apply hbehind
    have horder : placed ++ (front ++ m :: b :: back).reverse =
        (placed ++ back.reverse) ++ b :: (m :: front.reverse) := by simp
    rw [horder] at hnodup ⊢
    exact idxOf_lt_idxOf hnodup List.mem_cons_self
  · exfalso
    apply hbehind
    obtain ⟨front, back, rfl⟩ := List.append_of_mem hplaced
    rw [List.append_assoc, List.cons_append] at hnodup ⊢
    exact idxOf_lt_idxOf hnodup (List.mem_append_right _ (List.mem_reverse.mpr hm))
  · exact ⟨hlast, b, hmem, hb⟩

/-- A chain that comes back to itself has gone round a cycle. -/
theorem onCycle_of_last (hchain : Chain g decls placed id chain) (hlast : chain.getLast? = some m)
    (hmem : b ∈ chain) (hb : Extends g decls m b) : OnCycle g decls m :=
  .head' hb (Successors.leads_to_last hchain.isChain hlast hmem)

theorem step (h : Settled g decls placed) (hchain : Chain g decls placed id chain)
    (hnodup : (placed ++ chain.reverse).Nodup) : Settled g decls (placed ++ chain.reverse) := by
  have hnew : ∀ m ∈ chain, m ∉ placed := fun m hm hold =>
    (List.nodup_append.mp hnodup).2.2 m hold m (List.mem_reverse.mpr hm) rfl
  have hcases : ∀ {m}, m ∈ placed ++ chain.reverse → m ∈ placed ∨ m ∈ chain := fun hm =>
    (List.mem_append.mp hm).imp_right List.mem_reverse.mp
  refine ⟨hnodup, fun m hm b hb => ?closed, fun m hm hx => ?onCycle,
    fun m hm e he hmx hex hsame => ?unique⟩
  case closed =>
    rw [List.mem_append, List.mem_reverse]
    rcases hcases hm with hold | hmem
    · exact .inl (h.closed m hold b hb)
    · rcases hchain.base_next hmem hb with ⟨front, back, rfl⟩ | ⟨_, hb⟩
      · exact .inr (by simp)
      · exact hb
  case onCycle =>
    rcases hcases hm with hold | hmem
    · exact h.onCycle m hold ((h.isException_append_iff hold).mp hx)
    · obtain ⟨hlast, b, hbmem, hb⟩ := last_of_isException hchain hnodup hmem hx
      exact onCycle_of_last hchain hlast hbmem hb
  case unique =>
    -- a cycle lies wholly in what was placed before or wholly in the chain
    rcases hcases hm with hold | hmem <;> rcases hcases he with hold' | hmem'
    · exact h.unique m hold e hold' ((h.isException_append_iff hold).mp hmx)
        ((h.isException_append_iff hold').mp hex) hsame
    · exact absurd (h.mem_of_leads hold hsame.1) (hnew e hmem')
    · exact absurd (h.mem_of_leads hold' hsame.2) (hnew m hmem)
    · have hlast := (last_of_isException hchain hnodup hmem hmx).1
      have hlast' := (last_of_isException hchain hnodup hmem' hex).1
      exact Option.some.inj (hlast.symm.trans hlast')

end Settled

/-- Placing models one after the other follows the rules, and leaves them settled. -/
theorem places_foldl {ids : List DeclId} (hplaced : Placed (modelsOf g decls) placed)
    (h : Settled g decls placed) (hids : ∀ id ∈ ids, id ∈ modelsOf g decls) :
    Places g decls placed ids (ids.foldl (placeModel g (modelsOf g decls)) placed) ∧
      Settled g decls (ids.foldl (placeModel g (modelsOf g decls)) placed) := by
  induction ids generalizing placed with
  | nil => exact ⟨.done, h⟩
  | cons id ids ih =>
    have hid := hids id List.mem_cons_self
    have hchain : Chain g decls placed id
        (baseChain g (modelsOf g decls) (modelsOf g decls).length placed id) :=
      chain_baseChain hid (List.length_filter_le _ _)
    have hstep : Placed (modelsOf g decls) (placeModel g (modelsOf g decls) placed id) :=
      hplaced.step hid
    obtain ⟨hplaces, hsettled⟩ := ih hstep (h.step hchain hstep.nodup) fun other hother =>
      hids other (List.mem_cons_of_mem _ hother)
    exact ⟨.next hchain hplaces, hsettled⟩

/-! ## The order of a module -/

/-- On every cycle some model stands in front of its base. -/
theorem OnCycle.exists_isException (h : OnCycle g decls m) (order : List DeclId) :
    ∃ e, SameCycle g decls m e ∧ IsException g decls order e := by
  by_contra hnone
  have hless : ∀ {e}, TransGen (Extends g decls) m e → order.idxOf e < order.idxOf m := by
    have hstep : ∀ {e b}, ReflTransGen (Extends g decls) m e → Extends g decls e b →
        order.idxOf b < order.idxOf e := by
      intro e b he hb
      by_contra hbehind
      exact hnone ⟨e, ⟨he, h.leads_back he⟩, b, hb, hbehind⟩
    intro e he
    induction he with
    | single hb => exact hstep .refl hb
    | tail he hb ih => exact (hstep he.to_reflTransGen hb).trans ih
  exact Nat.lt_irrefl _ (hless h)

/-- An order of the models among some declarations in which each stands behind its base, except one
on each cycle of bases. -/
structure FollowsBases (g : Graph) (decls order : List DeclId) : Prop where
  nodup : order.Nodup
  mem_iff : ∀ id, id ∈ order ↔ id ∈ decls ∧ (g.model? id).isSome = true
  /-- Only on a cycle does a model stand in front of its base, or is it its own base. -/
  onCycle_of_exception : ∀ m, IsException g decls order m → OnCycle g decls m
  /-- On each cycle there is one such model. -/
  exception_of_onCycle : ∀ m, OnCycle g decls m →
    ∃! e, SameCycle g decls m e ∧ IsException g decls order e
  /-- Without cycles each base stands in front of all models that extend it. -/
  base_first : (∀ m, ¬ OnCycle g decls m) →
    ∀ m b, Extends g decls m b → order.idxOf b < order.idxOf m

/-- **A model stands behind its base, except once on each cycle of bases.** Placing the models comes
to an end on cycles too, and in a loaded program every base that is among the declarations counts,
since it is a model. -/
theorem orderModels_followsBases (g : Graph) (decls : List DeclId) :
    FollowsBases g decls (orderModels g decls) ∧
      Places g decls [] (modelsOf g decls) (orderModels g decls) ∧
      ∀ doc, Graph.ofDocument doc = .ok g → ∀ m ∈ decls, ∀ b ∈ decls,
        (g.model? m).bind (·.base) = some b → Extends g decls m b := by
  have hempty : Settled g decls [] := ⟨List.nodup_nil, nofun, nofun, nofun⟩
  obtain ⟨hplaces, hsettled⟩ : Places g decls [] (modelsOf g decls) (orderModels g decls) ∧
      Settled g decls (orderModels g decls) :=
    places_foldl ⟨List.nodup_nil, nofun⟩ hempty fun _ hid => hid
  have hmem : ∀ {m}, IsException g decls (orderModels g decls) m → m ∈ orderModels g decls := by
    rintro m ⟨b, hb, _⟩
    have hmodel : (g.model? m).isSome = true := by
      obtain ⟨model, hm, _⟩ := Option.bind_eq_some_iff.mp hb.2.2.2
      rw [hm, Option.isSome_some]
    exact mem_orderModels_iff.mpr ⟨hb.1, hmodel⟩
  have hcycle : ∀ m, IsException g decls (orderModels g decls) m → OnCycle g decls m :=
    fun m hm => hsettled.onCycle m (hmem hm) hm
  refine ⟨⟨orderModels_nodup g decls, fun id => mem_orderModels_iff, hcycle, fun m hm => ?unique,
    fun hacyclic m b hb => ?first⟩, hplaces, fun doc hdoc m hm b hb hbase => ?loaded⟩
  case unique =>
    obtain ⟨e, hsame, he⟩ := hm.exists_isException (orderModels g decls)
    refine ⟨e, ⟨hsame, he⟩, fun e' ⟨hsame', he'⟩ => ?_⟩
    exact hsettled.unique e' (hmem he') e (hmem he) he' he
      ⟨hsame'.2.trans hsame.1, hsame.2.trans hsame'.1⟩
  case first =>
    by_contra hbehind
    exact hacyclic m (hcycle m ⟨b, hb, hbehind⟩)
  case loaded =>
    obtain ⟨model, hmodel, hmbase⟩ := Option.bind_eq_some_iff.mp hbase
    obtain ⟨base, hbmodel⟩ := (Graph.coherent_of_ofDocument hdoc).base_model m model b hmodel hmbase
    exact ⟨hm, hb, by rw [hbmodel, Option.isSome_some], hbase⟩

end ApiEmit.Pydantic
