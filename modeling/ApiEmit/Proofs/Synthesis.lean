/-
ApiEmit.Proofs.Synthesis — how examples are made.

A choice takes its first alternative that is not null, at the same depth; every other type has an
example that is built from those of the types nested in it, one level deeper, until the depth is
reached where all examples are the empty object. `Synthesizes` says so by rules, with no bound on
how often an alternative is taken. An example is what the rules give, if they give anything, and
they do unless there is a choice that takes itself again.
-/
import ApiEmit.Graph.Load
import ApiEmit.Proofs.Nesting
import ApiEmit.Reference.Example

namespace ApiEmit

open Json (Value)
open Reference
open Relation (ReflTransGen TransGen)

namespace Graph

variable {g : Graph} {t t' s : Ty} {n m : Nat}

/-! ## Choices -/

/-- The alternatives of a type that is a choice. -/
def alternatives? (g : Graph) : Ty → Option (List Ty)
  | .union variants => some variants
  | .ref id => (g.union? id).map fun u => u.variants.map (·.type)
  | _ => none

/-- A choice takes its first alternative that is not null. -/
def Takes (g : Graph) (t t' : Ty) : Prop :=
  ∃ ts, g.alternatives? t = some ts ∧ ts.find? (! isNullType ·) = some t'

theorem Takes.opens (h : g.Takes t t') : g.Opens t t' := by
  obtain ⟨ts, hts, hfind⟩ := h
  have hmem : t' ∈ ts := List.mem_of_find?_eq_some hfind
  cases t with
  | union =>
    cases hts
    exact .part hmem
  | ref id =>
    obtain ⟨u, hu, rfl⟩ := Option.map_eq_some_iff.mp hts
    exact .declared (union?_eq_some_iff.mp hu) hmem
  | intrinsic | string | number | boolean | array | record | model => cases hts

theorem settleIn?_succ : settleIn? g (n + 1) t =
    match g.alternatives? t with
    | none => some t
    | some ts =>
      match ts.find? (! isNullType ·) with
      | some t' => settleIn? g n t'
      | none => some (.intrinsic .null) := by
  cases t with
  | ref id =>
    rw [settleIn?, alternatives?]
    cases g.union? id <;> rfl
  | union | intrinsic | string | number | boolean | array | record | model => rfl

/-- Some steps are enough for a choice exactly when no more alternatives are taken in a row. -/
theorem isSome_settleIn?_iff : (settleIn? g n t).isSome ↔ NestedWithin g.Takes n t := by
  induction n generalizing t with
  | zero => simp [settleIn?, not_nestedWithin_zero]
  | succ n ih =>
    rw [settleIn?_succ, nestedWithin_succ_iff]
    cases hts : g.alternatives? t with
    | none => simp [Takes, hts]
    | some ts =>
      cases hfind : ts.find? (! isNullType ·) with
      | none => simp [Takes, hts, hfind]
      | some t' => simp [Takes, hts, hfind, ih]

theorem settleIn?_mono (h : settleIn? g n t = some s) (hle : n ≤ m) :
    settleIn? g m t = some s := by
  induction n generalizing t m with
  | zero => cases h
  | succ n ih =>
    obtain ⟨m, rfl⟩ : ∃ m', m = m' + 1 := ⟨m - 1, by omega⟩
    rw [settleIn?_succ] at h ⊢
    split at h
    · rename_i hts
      simpa [hts] using h
    · rename_i ts hts
      split at h
      · rename_i t' hfind
        simpa [hts, hfind] using ih h (by omega)
      · rename_i hfind
        simpa [hts, hfind] using h

/-- A choice settles unless it takes itself again. -/
theorem isSome_settle?_iff : (settle? g t).isSome ↔ MeetsNoCycle g.Takes t := by
  constructor
  · exact fun h => (isSome_settleIn?_iff.mp h).meetsNoCycle
  · intro h
    exact isSome_settleIn?_iff.mpr
      ((nestedWithin_size (fun _ _ => Takes.opens) h).mono (Nat.le_succ _))

/-- The steps that are taken are enough, if any number is. -/
theorem settle?_eq_some_iff : settle? g t = some s ↔ ∃ n, settleIn? g n t = some s := by
  constructor
  · exact fun h => ⟨_, h⟩
  · rintro ⟨n, h⟩
    have hsome : (settleIn? g n t).isSome := h ▸ rfl
    have henough : (settle? g t).isSome :=
      isSome_settle?_iff.mpr (isSome_settleIn?_iff.mp hsome).meetsNoCycle
    obtain ⟨s', hs'⟩ := Option.isSome_iff_exists.mp henough
    rw [hs', eq_of_found settleIn?_mono hs' h]

theorem settle?_of_alternatives?_eq_none (h : g.alternatives? t = none) :
    settle? g t = some t := by
  rw [settle?, settleIn?_succ, h]

/-- What a choice takes is left of it when it is left of the alternative. -/
theorem settle?_of_takes (h : g.Takes t t') : settle? g t = settle? g t' := by
  obtain ⟨ts, hts, hfind⟩ := h
  have hstep : ∀ n, settleIn? g (n + 1) t = settleIn? g n t' := fun n => by
    rw [settleIn?_succ, hts]
    simp only [hfind]
  refine Option.ext fun s => ?_
  rw [settle?_eq_some_iff, settle?_eq_some_iff]
  constructor
  · rintro ⟨n, h⟩
    exact ⟨n, (hstep n).symm.trans (settleIn?_mono h (Nat.le_succ n))⟩
  · rintro ⟨n, h⟩
    exact ⟨n + 1, (hstep n).trans h⟩

/-- A choice among nulls is null. -/
theorem settle?_of_null {ts : List Ty} (hts : g.alternatives? t = some ts)
    (hnull : ∀ t' ∈ ts, isNullType t' = true) : settle? g t = some (.intrinsic .null) := by
  have hfind : ts.find? (! isNullType ·) = none :=
    List.find?_eq_none.mpr fun t' ht' => by simp [hnull t' ht']
  rw [settle?, settleIn?_succ, hts]
  simp only [hfind]

/-! ## Nested types -/

/-- The type of the items of a list. -/
def element? : Ty → Option Ty
  | .array element => some element
  | _ => none

/-- The members of the example of a type that is a record: one for the values of a model that has
any under further keys, and one for each property of any other. -/
def members? (g : Graph) : Ty → Option (List (String × Ty))
  | .record value => some [("key", value)]
  | .model properties => some (properties.map fun p => (p.name, p.type))
  | .ref id =>
    (g.model? id).map fun m =>
      match m.indexer with
      | some value => [("key", value)]
      | none => m.properties.map fun p => (p.name, p.type)
  | _ => none

/-- The types whose examples stand in the example of a type. -/
def nested (g : Graph) (t : Ty) : List Ty :=
  (element? t).toList ++ ((g.members? t).getD []).map (·.2)

theorem mem_nested_of_element {element : Ty} (h : element? t = some element) :
    element ∈ g.nested t := by
  simp [nested, h]

theorem mem_nested_of_member {members : List (String × Ty)} {member : String × Ty}
    (h : g.members? t = some members) (hmember : member ∈ members) : member.2 ∈ g.nested t := by
  rw [nested, h]
  exact List.mem_append_right _ (List.mem_map_of_mem hmember)

/-- What an example leads to: an alternative that is taken, or a type nested in it. -/
def ExampleLeads (g : Graph) (t t' : Ty) : Prop := g.Takes t t' ∨ t' ∈ g.nested t

theorem ExampleLeads.opens (h : g.ExampleLeads t t') : g.Opens t t' := by
  rcases h with htakes | hnested
  · exact htakes.opens
  · cases t with
    | array | record => exact .part hnested
    | model ps =>
      refine .part ?_
      simpa [nested, element?, members?] using hnested
    | union | intrinsic | string | number | boolean => cases hnested
    | ref id =>
      cases hm : g.model? id with
      | none => simp [nested, element?, members?, hm] at hnested
      | some m =>
        refine .declared (model?_eq_some_iff.mp hm) ?_
        cases hindexer : m.indexer with
        | some value =>
          obtain rfl : t' = value := by
            simpa [nested, element?, members?, hm, hindexer] using hnested
          simp [Declaration.types, hindexer]
        | none =>
          have hproperty : t' ∈ m.properties.map (·.type) := by
            simpa [nested, element?, members?, hm, hindexer] using hnested
          exact List.mem_append_left _ (List.mem_append_left _ hproperty)

end Graph

namespace Reference

variable {g : Graph} {t t' : Ty} {d : Nat}

/-! ## Rules -/

/-- The example of a type without nested types, if it has values. -/
def plainExample? (g : Graph) : Ty → Option Value
  | .intrinsic .null => some .null
  | .intrinsic .unknown => some emptyObject
  | .intrinsic .error => some emptyObject
  | .string s => some (.string s)
  | .number n => some (.number n)
  | .boolean b => some (.bool b)
  | .ref id =>
    match g.declaration? id with
    | some (.scalar _) => some (scalarExample g id)
    | some (.enum e) => some (enumExample e)
    | _ => none
  | _ => none

/-- The example of a type that is no choice, from those of the types nested in it. -/
def build (g : Graph) (inner : Ty → Option Value) (t : Ty) : Option Value :=
  match Graph.element? t with
  | some element => some (.array [(inner element).getD .null])
  | none =>
    match g.members? t with
    | some members => some (objectOf (members.map fun member => (member.1, inner member.2)))
    | none => plainExample? g t

/-- What is made for a type at a depth. No rule bounds how often an alternative is taken. -/
inductive Synthesizes (g : Graph) : Nat → Ty → Option Value → Prop
  | capped {d : Nat} {t : Ty} (hd : maxExampleDepth ≤ d) : Synthesizes g d t (some emptyObject)
  | takes {d : Nat} {t t' : Ty} {v : Option Value} (hd : d < maxExampleDepth)
      (htakes : g.Takes t t') (h : Synthesizes g d t' v) : Synthesizes g d t v
  | null {d : Nat} {t : Ty} {ts : List Ty} (hd : d < maxExampleDepth)
      (hts : g.alternatives? t = some ts) (hnull : ∀ t' ∈ ts, isNullType t' = true) :
      Synthesizes g d t (some .null)
  | built {d : Nat} {t : Ty} {inner : Ty → Option Value} (hd : d < maxExampleDepth)
      (hts : g.alternatives? t = none)
      (h : ∀ t' ∈ g.nested t, Synthesizes g (d + 1) t' (inner t')) :
      Synthesizes g d t (build g inner t)

/-- Only the examples of nested types are looked at. -/
theorem build_congr {inner inner' : Ty → Option Value}
    (h : ∀ t' ∈ g.nested t, inner t' = inner' t') : build g inner t = build g inner' t := by
  unfold build
  cases helement : Graph.element? t with
  | some element => simp only [h element (Graph.mem_nested_of_element helement)]
  | none =>
    cases hmembers : g.members? t with
    | none => rfl
    | some members =>
      have hmap : (members.map fun member => (member.1, inner member.2)) =
          members.map fun member => (member.1, inner' member.2) :=
        List.map_congr_left fun member hmember => by
          rw [h _ (Graph.mem_nested_of_member hmembers hmember)]
      simp only [hmap]

/-- Below the depth where all examples are empty, an example is built from those one level
deeper. -/
theorem example?_of_lt (hd : d < maxExampleDepth) :
    example? g t d = (settle? g t).bind (build g fun t' => example? g t' (d + 1)) := by
  obtain ⟨levels, hlevels⟩ : ∃ levels, maxExampleDepth - d = levels + 1 :=
    ⟨maxExampleDepth - (d + 1), by omega⟩
  have hinner : (fun t' => example? g t' (d + 1)) = exampleTo? g levels := by
    funext t'
    rw [example?, Nat.sub_add_eq, hlevels]
    rfl
  rw [hinner, example?, hlevels, exampleTo?]
  cases settle? g t with
  | none => rfl
  | some s =>
    cases s with
    | intrinsic i => cases i <;> rfl
    | union | string | number | boolean | array | record => rfl
    | model => simp [build, Graph.element?, Graph.members?, Function.comp_def]
    | ref id =>
      simp only [Option.bind_some, build, Graph.element?, Graph.members?, Graph.model?,
        plainExample?]
      cases g.declaration? id with
      | none => rfl
      | some declaration =>
        cases declaration with
        | enum | union | scalar => rfl
        | model m => cases hindexer : m.indexer <;> simp [hindexer, Function.comp_def]

theorem example?_of_le (hd : maxExampleDepth ≤ d) : example? g t d = some emptyObject := by
  rw [example?, Nat.sub_eq_zero_of_le hd, exampleTo?]

/-- What the rules give is the example. -/
theorem Synthesizes.eq {v : Option Value} (h : Synthesizes g d t v) : example? g t d = v := by
  induction h with
  | capped hd => exact example?_of_le hd
  | takes hd htakes _ ih =>
    rw [example?_of_lt hd, Graph.settle?_of_takes htakes, ← example?_of_lt hd, ih]
  | null hd hts hnull =>
    rw [example?_of_lt hd, Graph.settle?_of_null hts hnull]
    rfl
  | built hd hts _ ih =>
    rw [example?_of_lt hd, Graph.settle?_of_alternatives?_eq_none hts]
    exact build_congr ih

/-- An alternative is taken only so often in a row, and each example one level deeper is there. -/
theorem synthesizes_of_nestedWithin {n : Nat} (hd : d < maxExampleDepth)
    (hnested : NestedWithin g.Takes n t)
    (h : ∀ t', ReflTransGen g.ExampleLeads t t' →
      Synthesizes g (d + 1) t' (example? g t' (d + 1))) :
    Synthesizes g d t (example? g t d) := by
  suffices hsome : ∃ v, Synthesizes g d t v by
    obtain ⟨v, hv⟩ := hsome
    rwa [hv.eq]
  induction n generalizing t with
  | zero => exact absurd hnested not_nestedWithin_zero
  | succ n ih =>
    cases hts : g.alternatives? t with
    | none => exact ⟨_, .built hd hts fun t' ht' => h t' (.single (.inr ht'))⟩
    | some ts =>
      cases hfind : ts.find? (! isNullType ·) with
      | none =>
        have hnull : ∀ t' ∈ ts, isNullType t' = true := by
          simpa using List.find?_eq_none.mp hfind
        exact ⟨_, .null hd hts hnull⟩
      | some t' =>
        have htakes : g.Takes t t' := ⟨ts, hts, hfind⟩
        obtain ⟨v, hv⟩ := ih (nestedWithin_succ_iff.mp hnested t' htakes)
          fun t'' ht'' => h t'' (.head (.inl htakes) ht'')
        exact ⟨v, .takes hd htakes hv⟩

/-- Every example is made unless a choice takes itself again. The induction is on the levels that
are left. -/
theorem synthesizes_example?
    (h : ∀ t', ReflTransGen g.ExampleLeads t t' → ¬ TransGen g.Takes t' t') :
    Synthesizes g d t (example? g t d) := by
  induction hlevels : maxExampleDepth - d generalizing d t with
  | zero =>
    have hd : maxExampleDepth ≤ d := by omega
    rw [example?_of_le hd]
    exact .capped hd
  | succ levels ih =>
    have hcycle : MeetsNoCycle g.Takes t := fun t' ht' =>
      h t' (ReflTransGen.mono (fun _ _ => .inl) _ _ ht')
    have hnested := Graph.nestedWithin_size (fun _ _ => Graph.Takes.opens) hcycle
    refine synthesizes_of_nestedWithin (by omega) hnested fun t' ht' => ?_
    exact ih (fun t'' ht'' => h t'' (ht'.trans ht'')) (by omega)

/-! ## Depth -/

theorem depthMembers_le {members : List (String × Value)} {k : Nat}
    (h : ∀ member ∈ members, member.2.depth ≤ k) : Value.depthMembers members ≤ k := by
  induction members with
  | nil => exact Nat.zero_le k
  | cons member rest ih =>
    rw [Value.depthMembers]
    exact max_le (h member List.mem_cons_self) (ih fun m hm => h m (List.mem_cons_of_mem _ hm))

theorem depth_objectOf_le {members : List (String × Option Value)} {k : Nat}
    (h : ∀ member ∈ members, ∀ v, member.2 = some v → v.depth ≤ k) :
    (objectOf members).depth ≤ k + 1 := by
  rw [objectOf, Value.depth]
  refine Nat.succ_le_succ (depthMembers_le fun member hmember => ?_)
  obtain ⟨⟨name, value⟩, hmem, heq⟩ := List.mem_filterMap.mp hmember
  obtain ⟨v, hv, rfl⟩ := Option.map_eq_some_iff.mp heq
  exact h _ hmem v hv

theorem depth_ite {c : Prop} [Decidable c] {a : Value} {rest : Option Value} (ha : a.depth = 0)
    (hrest : ∀ v, rest = some v → v.depth = 0) :
    ∀ v, (if c then some a else rest) = some v → v.depth = 0 := by
  intro v h
  split at h
  · cases h
    exact ha
  · exact hrest v h

theorem depth_scalarValue? (name : String) : ∀ v, scalarValue? name = some v → v.depth = 0 := by
  unfold scalarValue?
  repeat refine depth_ite rfl ?_
  intro v h
  cases h

theorem depth_scalarExample (g : Graph) (id : DeclId) : (scalarExample g id).depth = 0 := by
  rw [scalarExample]
  cases hfound : (g.scalarChain id).findSome? fun id => scalarValue? id.name with
  | none => rfl
  | some v =>
    obtain ⟨_, _, hv⟩ := List.exists_of_findSome?_eq_some hfound
    exact depth_scalarValue? _ _ hv

theorem depth_enumExample (e : EnumDecl) : (enumExample e).depth = 0 := by
  unfold enumExample
  split
  · rfl
  · split <;> rfl

theorem depth_plainExample?_le {v : Value} (hv : plainExample? g t = some v) : v.depth ≤ 1 := by
  cases t with
  | array | record | union | model => cases hv
  | string | number | boolean =>
    cases hv
    exact Nat.zero_le 1
  | intrinsic i =>
    cases i <;> cases hv
    · exact Nat.zero_le 1
    · exact Nat.le_refl 1
    · exact Nat.le_refl 1
  | ref id =>
    rw [plainExample?] at hv
    split at hv
    · cases hv
      exact (depth_scalarExample g id).trans_le (Nat.zero_le 1)
    · cases hv
      exact (depth_enumExample _).trans_le (Nat.zero_le 1)
    · cases hv

/-- An example is nested one level deeper than those within it. -/
theorem depth_build_le {inner : Ty → Option Value} {k : Nat} {v : Value}
    (h : ∀ t' ∈ g.nested t, ∀ v, inner t' = some v → v.depth ≤ k) (hv : build g inner t = some v) :
    v.depth ≤ k + 1 := by
  unfold build at hv
  cases helement : Graph.element? t with
  | some element =>
    rw [helement] at hv
    cases hv
    have hitem : ((inner element).getD .null).depth ≤ k := by
      cases he : inner element with
      | none => exact Nat.zero_le k
      | some item => exact h element (Graph.mem_nested_of_element helement) item he
    simpa [Value.depth, Value.depthItems] using hitem
  | none =>
    rw [helement] at hv
    cases hmembers : g.members? t with
    | some members =>
      rw [hmembers] at hv
      cases hv
      refine depth_objectOf_le fun entry hentry v hv => ?_
      obtain ⟨member, hmember, rfl⟩ := List.mem_map.mp hentry
      exact h _ (Graph.mem_nested_of_member hmembers hmember) v hv
    | none =>
      rw [hmembers] at hv
      exact (depth_plainExample?_le hv).trans (Nat.le_add_left 1 k)

theorem Synthesizes.depth_le {v : Value} (h : Synthesizes g d t (some v)) :
    v.depth ≤ max 1 (maxExampleDepth + 1 - d) := by
  generalize hsome : some v = result at h
  induction h generalizing v with
  | capped =>
    cases hsome
    exact Nat.le_max_left 1 _
  | takes _ _ _ ih => exact ih hsome
  | null =>
    cases hsome
    exact Nat.zero_le _
  | @built d t inner hd _ _ ih =>
    have hle := depth_build_le (fun t' ht' v hv => ih t' ht' hv.symm) hsome.symm
    omega

/-- **Examples are made, and no deeper than they may be**, unless there is a choice that takes
itself again: the rules give the example and nothing else. -/
theorem example_synthesis
    (h : ∀ t', ReflTransGen g.ExampleLeads t t' → ¬ TransGen g.Takes t' t') (d : Nat) :
    (∀ v, Synthesizes g d t v ↔ v = example? g t d) ∧
    ∀ v, example? g t d = some v → v.depth ≤ max 1 (7 - d) := by
  have hmade : Synthesizes g d t (example? g t d) := synthesizes_example? h
  refine ⟨fun v => ⟨fun hv => hv.eq.symm, ?_⟩, fun v hv => ?_⟩
  · rintro rfl
    exact hmade
  · rw [hv] at hmade
    exact hmade.depth_le

/-- No choice takes itself again if all types within reach settle. -/
theorem not_takes_self_of_settles (h : (g.within t).all fun t' => (settle? g t').isSome) :
    ∀ t', ReflTransGen g.ExampleLeads t t' → ¬ TransGen g.Takes t' t' := by
  intro t' ht'
  have hopens : ReflTransGen g.Opens t t' :=
    ReflTransGen.mono (fun _ _ => Graph.ExampleLeads.opens) _ _ ht'
  have hsettles := List.all_eq_true.mp h t' (Graph.mem_within_of_reflTransGen hopens)
  exact Graph.isSome_settle?_iff.mp hsettles t' .refl

/-- Comments that answer comments, with a model that has itself as further values. -/
def thread : Document :=
  { root :=
      { name := ""
        models := [
          ⟨"Comment", none, none, none,
            [⟨"text", .ref "string", false, none, none, {}⟩,
              ⟨"answerTo", .ref "Answered", false, none, none, {}⟩,
              ⟨"answers", .array (.ref "Comment"), false, none, none, {}⟩,
              ⟨"votes", .ref "Votes", false, none, none, {}⟩], {}⟩,
          ⟨"Votes", none, none, some (.ref "Votes"), [], {}⟩]
        unions := [⟨"Answered", none, [⟨none, .intrinsic "null"⟩, ⟨none, .ref "Comment"⟩]⟩] }
    diagnostics := [] }

theorem example_synthesis_thread : ∃ g, Graph.ofDocument thread = .ok g ∧
    (∀ t', ReflTransGen g.ExampleLeads (atRoot "Answered") t' → ¬ TransGen g.Takes t' t') ∧
    (∀ v, Synthesizes g 0 (atRoot "Answered") v ↔
      v = example? g (atRoot "Answered") 0) ∧
    ∀ v, example? g (atRoot "Answered") 0 = some v → v.depth ≤ max 1 (7 - 0) := by
  obtain ⟨g, hg, hsettles⟩ : ∃ g, Graph.ofDocument thread = .ok g ∧
      ((g.within (atRoot "Answered")).all fun t' => (settle? g t').isSome) = true :=
    ⟨_, rfl, by decide⟩
  have hacyclic := not_takes_self_of_settles hsettles
  exact ⟨g, hg, hacyclic, example_synthesis hacyclic 0⟩

end Reference

end ApiEmit
