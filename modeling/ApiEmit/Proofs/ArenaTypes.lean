/-
ApiEmit.Proofs.ArenaTypes — type expressions, resolved in an arena as in a graph.

A step that resolves something adds nodes for inline types and changes nothing else, so the arena
stays the form of the same graph (`Resolves`). The index that resolving an expression gives shows
the type that it gives in the graph (`type_resolves`).
-/
import ApiEmit.Proofs.ArenaNames
import ApiEmit.Proofs.ArenaSteps

namespace ApiEmit.Arena

/-! ## Steps that resolve -/

/-- A step gives what shows the result of a computation, and leaves an arena of the same graph. -/
def Resolves {α β : Type} (L : Legend) (g : Graph) (a : Arena) (step : Loader α)
    (result : Except LoadError β) (R : List Node → β → α → Prop) : Prop :=
  Follows step a result fun b x a' =>
    Represents L g a' ∧ Keeps L a.types L a'.types ∧ R a'.types b x

/-- What an arena shows, it shows when it has grown. -/
def Stable {α β : Type} (L : Legend) (R : List Node → β → α → Prop) : Prop :=
  ∀ types types' b x, Keeps L types L types' → R types b x → R types' b x

variable {L : Legend} {g : Graph} {a : Arena}

namespace Resolves

variable {α β γ δ ι : Type} {step : Loader α} {result : Except LoadError β}
  {R : List Node → β → α → Prop}

theorem pure {x : α} {b : β} (h : Represents L g a) (hR : R a.types b x) :
    Resolves L g a (Pure.pure x) (.ok b) R :=
  Follows.pure ⟨h, .refl L a.types, hR⟩

theorem bind {next : α → Loader γ} {next' : β → Except LoadError δ} {S : List Node → δ → γ → Prop}
    (h : Resolves L g a step result R)
    (hnext : ∀ b x a', Represents L g a' → Keeps L a.types L a'.types → R a'.types b x →
      Resolves L g a' (next x) (next' b) S) :
    Resolves L g a (step >>= next) (result >>= next') S := by
  refine Follows.bind h fun b x a' hpost => ?_
  obtain ⟨ha', hk, hR⟩ := hpost
  refine (hnext b x a' ha' hk hR).imp fun d y a'' hpost' => ?_
  obtain ⟨ha'', hk', hS⟩ := hpost'
  exact ⟨ha'', hk.trans hk', hS⟩

/-- A value that is made from what is resolved. -/
theorem map {x : α → γ} {b : β → δ} {S : List Node → δ → γ → Prop}
    (h : Resolves L g a step result R) (hS : ∀ types y z, R types y z → S types (b y) (x z)) :
    Resolves L g a (step >>= fun z => Pure.pure (x z)) (result >>= fun y => .ok (b y)) S :=
  h.bind fun y z _ ha' _ hR => .pure ha' (hS _ y z hR)

/-- Resolving the entries of a list one by one. -/
theorem mapM {f : ι → Loader α} {f' : ι → Except LoadError β} {entries : List ι}
    (hR : Stable L R)
    (h : ∀ entry ∈ entries, ∀ a, Represents L g a → Resolves L g a (f entry) (f' entry) R)
    (ha : Represents L g a) :
    Resolves L g a (entries.mapM f) (entries.mapM f') fun types => List.Forall₂ (R types) := by
  induction entries generalizing a with
  | nil => exact .pure ha .nil
  | cons first rest ih =>
    rw [List.mapM_cons, List.mapM_cons]
    refine (h first List.mem_cons_self a ha).bind fun b x a' ha' _ hfirst => ?_
    have hrest := ih (fun entry hentry => h entry (List.mem_cons_of_mem _ hentry)) ha'
    refine hrest.bind fun bs xs a'' ha'' hk hxs => ?_
    exact .pure ha'' (.cons (hR _ _ _ _ hk hfirst) hxs)

/-- Resolving a value that may be absent. -/
theorem optional {f : ι → Loader α} {f' : ι → Except LoadError β} {value : Option ι}
    (h : ∀ i, value = some i → Resolves L g a (f i) (f' i) R) (ha : Represents L g a) :
    Resolves L g a (value.mapM f) (Load.resolveOptional f' value)
      fun types => Option.Rel (R types) := by
  cases value with
  | none => exact .pure ha .none
  | some i =>
    have hmap : Resolves L g a (f i >>= fun x => Pure.pure (some x))
        (f' i >>= fun b => .ok (some b)) fun types => Option.Rel (R types) :=
      (h i rfl).map fun _ _ _ hx => .some hx
    exact hmap

end Resolves

/-! ## New nodes -/

theorem keeps_append (L : Legend) (types new : List Node) : Keeps L types L (types ++ new) where
  place _ _ h := h
  decl _ _ h := h
  inline _ _ h :=
    ⟨h.1, (List.getElem?_append_left (Represents.position_lt_of_hasInline h)).trans h.2⟩

namespace Represents

/-- No declaration has the next index. -/
theorem owner?_length (h : Represents L g a) : L.owner? ⟨a.types.length⟩ = none := by
  rw [Legend.owner?, List.getElem?_eq_none h.owners_le]
  rfl

/-- Adding the node of an inline type, whose parts are there. -/
theorem alloc (h : Represents L g a) {node : Node} {t : Ty}
    (ht : Shows L (a.types ++ [node]) t ⟨a.types.length⟩) :
    Represents L g { a with types := a.types ++ [node] } := by
  have hk := keeps_append L a.types [node]
  have hold : ∀ (i : TypeIndex) n, a.type? i = some n → (a.types ++ [node])[i.position]? = some n :=
    fun i n hi => (List.getElem?_append_left (List.getElem?_eq_some_iff.mp hi).1).trans hi
  refine h.withTypes hk (by simp) ?_ h.kinds ?_ fun d i hd hi => hold i _ (h.waiting d i hd hi)
  · intro n i hi
    rcases Nat.lt_or_ge i.position a.types.length with hlt | hge
    · rw [Legend.HasInline, List.getElem?_append_left hlt] at hi
      obtain ⟨t, ht⟩ := h.inline n i hi
      exact ⟨t, ht.mono hk⟩
    · have hlast : i.position < (a.types ++ [node]).length := position_lt_of_hasInline hi
      obtain rfl : i = ⟨a.types.length⟩ := by
        cases i
        simp at hlast hge ⊢
        omega
      exact ⟨t, ht⟩
  · intro d decl i hd hi
    obtain ⟨n, hn, hshows⟩ := h.resolved d decl i hd hi
    exact ⟨n, hold i n hn, hshows.mono hk⟩

end Represents

/-- A node for an inline type is added at an index that shows the type. -/
theorem alloc_resolves (h : Represents L g a) {node : Node} {t : Ty}
    (ht : ∀ types i, Keeps L a.types L types → L.HasInline types node i → Shows L types t i) :
    Resolves L g a (Loader.alloc node) (.ok t) (Shows L) := by
  have hk := keeps_append L a.types [node]
  have hinline : L.HasInline (a.types ++ [node]) node ⟨a.types.length⟩ :=
    ⟨h.owner?_length, by simp⟩
  have hshows := ht _ _ hk hinline
  exact ⟨⟨a.types.length⟩, _, rfl, h.alloc hshows, hk, hshows⟩

/-! ## Names -/

theorem stable_shows (L : Legend) : Stable L (Shows L) := fun _ _ _ _ hk h => h.mono hk

/-- A place in a program, and the index of its namespace. -/
structure At (L : Legend) (g : Graph) (place : Load.Place) (scope : NamespaceIndex) : Prop where
  namespaces : place.namespaces = g.namespaces
  home : L.IsPlace place.home scope

variable {place : Load.Place} {scope : NamespaceIndex}

theorem reference_resolves (h : Represents L g a) (hp : At L g place scope) (name : String) :
    Resolves L g a (Loader.reference scope place.context name) (place.reference name)
      (Shows L) := by
  obtain ⟨found, hfound, hshows⟩ := h.lookup?_shows hp.home name
  unfold Loader.reference Load.Place.reference
  rw [hp.namespaces]
  refine Follows.ask hfound ?_
  obtain ⟨hnone, rfl⟩ | ⟨target, i, htarget, rfl, hi⟩ := Aligned.option_cases hshows
  · rw [hnone]
    exact Follows.refuse _
  · rw [htarget]
    cases hi with
    | declared hi => exact Resolves.pure h (.ref hi)
    | intrinsic hi => exact Resolves.pure h (.intrinsic hi)

theorem intrinsic_resolves (h : Represents L g a) (name : String) :
    Resolves L g a (Loader.intrinsic place.context name) (place.intrinsic name) (Shows L) := by
  unfold Loader.intrinsic Load.Place.intrinsic
  cases Intrinsic.ofName? name with
  | none => exact Follows.refuse _
  | some k =>
    cases k with
    | error => exact alloc_resolves h fun _ _ _ hi => .intrinsic hi
    | null | void | never | unknown =>
      exact .pure h (.intrinsic (h.intrinsics _ _ rfl))

/-! ## Type expressions -/

namespace Loader

theorem types_eq_mapM (scope : NamespaceIndex) (context : String) (es : List Document.Expr) :
    types scope context es = es.mapM (type scope context) := by
  induction es with
  | nil => rfl
  | cons e es ih => rw [types, List.mapM_cons, ih]

theorem inlineProperties_eq_mapM (scope : NamespaceIndex) (context : String)
    (ps : List (InlineProperty Document.Expr)) :
    inlineProperties scope context ps = ps.mapM fun p => do
      return { name := p.name, type := ← type scope context p.type, optional := p.optional,
               doc := p.doc } := by
  induction ps with
  | nil => rfl
  | cons p ps ih =>
    obtain ⟨name, written, optional, doc⟩ := p
    rw [inlineProperties, List.mapM_cons, ih, bind_assoc]
    rfl

end Loader

/-- **Resolving an expression gives an index that shows its type.** -/
theorem type_resolves (h : Represents L g a) (hp : At L g place scope) (e : Document.Expr) :
    Resolves L g a (Loader.type scope place.context e) (place.type e) (Shows L) := by
  induction e using TypeExpr.induction_parts generalizing a with
  | step e ih =>
    cases e with
    | ref name => exact reference_resolves h hp name
    | intrinsic name => exact intrinsic_resolves h name
    | string s => exact alloc_resolves h fun _ _ _ hi => .string hi
    | number n => exact alloc_resolves h fun _ _ _ hi => .number hi
    | boolean b => exact alloc_resolves h fun _ _ _ hi => .boolean hi
    | array element =>
      refine (ih element List.mem_cons_self h).bind fun t value a' ha' _ ht => ?_
      exact alloc_resolves ha' fun _ _ hk hi => .array hi (ht.mono hk)
    | record value =>
      refine (ih value List.mem_cons_self h).bind fun t value a' ha' _ ht => ?_
      exact alloc_resolves ha' fun _ _ hk hi => .record hi (ht.mono hk)
    | union es =>
      have hes := Resolves.mapM (stable_shows L) (fun e he _ ha => ih e he ha) h
      rw [Loader.type, Load.Place.type, Loader.types_eq_mapM, Load.types_eq_mapM]
      refine hes.bind fun ts ids a' ha' _ hts => ?_
      exact alloc_resolves ha' fun _ _ hk hi =>
        .union hi ((showsAll_iff_forall₂.mpr hts).mono hk)
    | model ps =>
      have hstable : Stable L (ShowsInlineProperty L) := fun _ _ _ _ hk hq =>
        ⟨hq.1.mono hk, hq.2⟩
      have hproperty : ∀ p ∈ ps, ∀ a, Represents L g a → Resolves L g a
          (do return { name := p.name, type := ← Loader.type scope place.context p.type,
                       optional := p.optional, doc := p.doc })
          (do return ⟨p.name, ← place.type p.type, p.optional, p.doc⟩)
          (ShowsInlineProperty L) := fun p hmem a ha =>
        (ih p.type (List.mem_map_of_mem hmem) ha).map fun _ _ _ ht => ⟨ht, rfl⟩
      rw [Loader.type, Load.Place.type, Loader.inlineProperties_eq_mapM,
        Load.inlineProperties_eq_mapM]
      refine (Resolves.mapM hstable hproperty h).bind fun ps' qs a' ha' _ hqs => ?_
      have hname : ∀ p q, ShowsInlineProperty L a'.types p q → p.name = q.name := fun p q hq => by
        rw [hq.2]
      have hkept := showsInline_iff_forall₂.mpr (Keyed.forall₂_ofList hname hqs)
      exact alloc_resolves ha' fun _ _ hk hi => .model hi (hkept.mono hk)

end ApiEmit.Arena
