/-
ApiEmit.Proofs.Keyed — lists whose entries have keys.

Where no key occurs twice, looking a key up and being an entry are the same, and keeping the last
entry for each key keeps the list. In any list the keys that are kept are those that occur, in the
order in which each occurs first.
-/
import ApiEmit.Keyed
import Mathlib.Data.List.Induction
import Mathlib.Data.List.Nodup
import Mathlib.Data.List.Perm.Basic

namespace ApiEmit.Keyed

variable {α β κ : Type} [DecidableEq κ]

/-- An entry for another key is passed over. -/
theorem lookup_cons_of_ne {k k' : κ} (h : k ≠ k') (b : β) (rest : List (κ × β)) :
    ((k', b) :: rest).lookup k = rest.lookup k := by
  rw [List.lookup_cons, beq_eq_false_iff_ne.mpr h]

/-- What is found is an entry. -/
theorem mem_of_lookup {entries : List (κ × β)} {k : κ} {b : β} (h : entries.lookup k = some b) :
    (k, b) ∈ entries := by
  obtain ⟨before, after, hsplit, _⟩ := List.lookup_eq_some_iff.mp h
  rw [hsplit]
  exact List.mem_append_right _ List.mem_cons_self

/-- Looking up a key finds its only entry. -/
theorem lookup_eq_some_iff_mem {entries : List (κ × β)} (h : (entries.map (·.1)).Nodup) {k : κ}
    {b : β} : entries.lookup k = some b ↔ (k, b) ∈ entries := by
  induction entries with
  | nil => simp
  | cons entry rest ih =>
    obtain ⟨k', b'⟩ := entry
    rw [List.map_cons, List.nodup_cons] at h
    by_cases hk : k = k'
    · subst hk
      rw [List.lookup_cons_self, Option.some.injEq, List.mem_cons, Prod.mk.injEq]
      constructor
      · exact fun heq => Or.inl ⟨rfl, heq.symm⟩
      · intro h
        rcases h with ⟨_, heq⟩ | hmem
        · exact heq.symm
        · exact absurd (List.mem_map_of_mem hmem) h.1
    · rw [lookup_cons_of_ne hk]
      simp [ih h.2, hk]

theorem isSome_lookup_iff {entries : List (κ × β)} {k : κ} :
    (entries.lookup k).isSome = true ↔ k ∈ entries.map (·.1) := by
  rw [← Option.ne_none_iff_isSome, Ne, List.lookup_eq_none_iff, List.mem_map]
  push Not
  refine exists_congr fun entry => and_congr_right' ?_
  rw [Ne, bne_iff_ne, Ne, not_not, eq_comm]

/-- A key without an entry is not found. -/
theorem lookup_graph_of_not_mem {keys : List κ} (f : κ → β) {k : κ} (h : k ∉ keys) :
    (keys.map fun k' => (k', f k')).lookup k = none := by
  rw [List.lookup_eq_none_iff]
  intro entry hentry
  obtain ⟨k', hk', rfl⟩ := List.mem_map.mp hentry
  have hne : k ≠ k' := fun heq => h (heq ▸ hk')
  simpa using hne

/-- A search by key finds the only entry with the key. -/
theorem find?_key_eq_some {entries : List α} {key : α → κ} (h : (entries.map key).Nodup) {a : α}
    (ha : a ∈ entries) : entries.find? (key · == key a) = some a := by
  induction entries with
  | nil => cases ha
  | cons first rest ih =>
    rw [List.map_cons, List.nodup_cons] at h
    rcases List.mem_cons.mp ha with rfl | hrest
    · exact List.find?_cons_of_pos (beq_self_eq_true _)
    · rw [List.find?_cons_of_neg]
      · exact ih h.2 hrest
      · intro hkey
        rw [beq_iff_eq] at hkey
        apply h.1
        rw [hkey]
        exact List.mem_map_of_mem hrest

/-- An entry for a new key comes last. -/
theorem put_of_not_mem {key : α → κ} {entry : α} {kept : List α} (h : key entry ∉ kept.map key) :
    put key entry kept = kept ++ [entry] := by
  induction kept with
  | nil => rfl
  | cons first rest ih =>
    rw [List.map_cons, List.mem_cons, not_or] at h
    rw [put, if_neg (Ne.symm h.1), ih h.2, List.cons_append]

theorem foldl_put_of_nodup {key : α → κ} {entries kept : List α}
    (h : ((kept ++ entries).map key).Nodup) :
    entries.foldl (fun kept entry => put key entry kept) kept = kept ++ entries := by
  induction entries generalizing kept with
  | nil => simp
  | cons first rest ih =>
    have hnew : key first ∉ kept.map key := by
      rw [List.map_append, List.map_cons, List.nodup_append] at h
      exact fun hmem => h.2.2 _ hmem _ List.mem_cons_self rfl
    rw [List.append_cons] at h ⊢
    rw [List.foldl_cons, put_of_not_mem hnew, ih h]

/-- Only what is put is added. -/
theorem mem_of_mem_put {key : α → κ} {entry a : α} {kept : List α} (h : a ∈ put key entry kept) :
    a = entry ∨ a ∈ kept := by
  induction kept with
  | nil => exact .inl (List.mem_singleton.mp h)
  | cons first rest ih =>
    rw [put] at h
    split at h
    · exact (List.mem_cons.mp h).imp_right (List.mem_cons_of_mem _)
    · rcases List.mem_cons.mp h with rfl | h
      · exact .inr List.mem_cons_self
      · exact (ih h).imp_right (List.mem_cons_of_mem _)

theorem mem_of_mem_foldl_put {key : α → κ} {entries kept : List α} {a : α}
    (h : a ∈ entries.foldl (fun kept entry => put key entry kept) kept) :
    a ∈ entries ∨ a ∈ kept := by
  induction entries generalizing kept with
  | nil => exact .inr h
  | cons first rest ih =>
    rcases ih h with hrest | hput
    · exact .inl (List.mem_cons_of_mem _ hrest)
    · rcases mem_of_mem_put hput with rfl | hkept
      · exact .inl List.mem_cons_self
      · exact .inr hkept

/-- What is kept of a list stands in the list. -/
theorem mem_of_mem_ofList {key : α → κ} {entries : List α} {a : α} (h : a ∈ ofList key entries) :
    a ∈ entries :=
  (mem_of_mem_foldl_put h).resolve_right List.not_mem_nil

/-- Entries with different keys are all kept. -/
theorem ofList_of_nodup {key : α → κ} {entries : List α} (h : (entries.map key).Nodup) :
    ofList key entries = entries :=
  foldl_put_of_nodup h

/-- An entry whose key comes up again is replaced, and the others are kept. -/
theorem ofList_cons_perm {key : α → κ} {entry : α} {entries : List α}
    (hnodup : (entries.map key).Nodup) (h : key entry ∈ entries.map key) :
    (ofList key (entry :: entries)).Perm entries := by
  obtain ⟨later, hlater, hkey⟩ := List.mem_map.mp h
  obtain ⟨before, after, rfl⟩ := List.append_of_mem hlater
  have hmoved : ((later :: before ++ after).map key).Nodup :=
    (List.perm_middle.map key).nodup_iff.mp hnodup
  have hbefore : (([entry] ++ before).map key).Nodup := by
    rw [List.singleton_append, List.map_cons, ← hkey]
    rw [List.cons_append, List.map_cons, List.map_append] at hmoved
    exact hmoved.sublist ((List.sublist_append_left _ _).cons_cons _)
  have hput : put key later ([entry] ++ before) = later :: before := if_pos hkey.symm
  have hkept : ofList key (entry :: (before ++ later :: after)) = later :: before ++ after := by
    rw [ofList, List.foldl_cons, List.foldl_append, List.foldl_cons]
    change after.foldl _ (put key later (before.foldl _ [entry])) = _
    rw [foldl_put_of_nodup hbefore, hput, foldl_put_of_nodup hmoved]
  rw [hkept]
  exact List.perm_middle.symm

/-! ## Groups -/

theorem firsts_append_singleton {key : α → κ} (entries : List α) (a : α) :
    firsts key (entries ++ [a]) = add key (firsts key entries) a := by
  simp [firsts]

theorem mem_of_mem_firsts {key : α → κ} {entries : List α} {a : α} (h : a ∈ firsts key entries) :
    a ∈ entries := by
  induction entries using List.reverseRecOn with
  | nil => cases h
  | append_singleton entries b ih =>
    rw [firsts_append_singleton, add] at h
    split at h
    · exact List.mem_append_left _ (ih h)
    · exact (List.mem_append.mp h).elim (fun h => List.mem_append_left _ (ih h))
        (List.mem_append_right _)

/-- The keys of a list are those of the entries that are kept. -/
theorem mem_map_firsts_iff {key : α → κ} {entries : List α} {k : κ} :
    k ∈ (firsts key entries).map key ↔ k ∈ entries.map key := by
  induction entries using List.reverseRecOn generalizing k with
  | nil => rfl
  | append_singleton entries a ih =>
    rw [firsts_append_singleton, add]
    split
    · rename_i hkept
      have hbefore : key a ∈ entries.map key := ih.mp hkept
      rw [ih, List.map_append, List.mem_append, List.map_singleton, List.mem_singleton]
      exact ⟨.inl, fun h => h.elim id fun heq => heq ▸ hbefore⟩
    · rw [List.map_append, List.map_append, List.mem_append, List.mem_append, ih]

/-- No key is kept twice. -/
theorem map_firsts_nodup (key : α → κ) (entries : List α) :
    ((firsts key entries).map key).Nodup := by
  induction entries using List.reverseRecOn with
  | nil => exact List.nodup_nil
  | append_singleton entries a ih =>
    rw [firsts_append_singleton, add]
    split
    · exact ih
    · rename_i hnew
      rw [List.map_append, List.nodup_append]
      refine ⟨ih, List.nodup_singleton _, fun k hk k' hk' heq => ?_⟩
      rw [List.map_singleton, List.mem_singleton] at hk'
      exact hnew (hk' ▸ heq ▸ hk)

/-- The first entry is kept. -/
theorem head?_firsts (key : α → κ) (entries : List α) :
    (firsts key entries).head? = entries.head? := by
  induction entries using List.reverseRecOn with
  | nil => rfl
  | append_singleton entries a ih =>
    rw [firsts_append_singleton, add]
    split
    · rename_i hkept
      have hne : entries ≠ [] := by
        rintro rfl
        cases hkept
      rw [ih, List.head?_append_of_ne_nil _ hne]
    · rw [List.head?_append, List.head?_append, ih]

theorem firsts_eq_nil_iff {key : α → κ} {entries : List α} :
    firsts key entries = [] ↔ entries = [] := by
  rw [← List.head?_eq_none_iff, head?_firsts, List.head?_eq_none_iff]

/-- The entries that no entry in front of them shares its key with. -/
def firstOccurrences (key : α → κ) (entries : List α) : List α :=
  (entries.zipIdx.filter fun entry => key entry.1 ∉ (entries.take entry.2).map key).map (·.1)

theorem firstOccurrences_append_singleton (key : α → κ) (entries : List α) (a : α) :
    firstOccurrences key (entries ++ [a]) =
      firstOccurrences key entries ++ if key a ∈ entries.map key then [] else [a] := by
  -- an entry has the same entries in front of it in both lists
  have hbefore : ∀ entry ∈ entries.zipIdx,
      (entries ++ [a]).take entry.2 = entries.take entry.2 := by
    intro entry hmem
    have hi := List.snd_lt_of_mem_zipIdx hmem
    exact List.take_append_of_le_length (by omega)
  rw [firstOccurrences, List.zipIdx_append, List.filter_append, List.map_append, firstOccurrences]
  congr 1
  · exact congrArg _ (List.filter_congr fun entry hmem => by rw [hbefore entry hmem])
  · by_cases hmem : key a ∈ entries.map key <;> simp [hmem]

/-- What is kept are the first occurrences. -/
theorem firsts_eq_firstOccurrences (key : α → κ) (entries : List α) :
    firsts key entries = firstOccurrences key entries := by
  induction entries using List.reverseRecOn with
  | nil => rfl
  | append_singleton entries a ih =>
    rw [firsts_append_singleton, add, firstOccurrences_append_singleton, ← ih]
    simp only [mem_map_firsts_iff]
    split
    · rw [List.append_nil]
    · rfl

/-- What is added to some entries are the first occurrences of keys that they do not have. -/
theorem foldl_add_eq (key : α → κ) (entries kept : List α) :
    entries.foldl (add key) kept =
      kept ++ (firstOccurrences key entries).filter (key · ∉ kept.map key) := by
  induction entries using List.reverseRecOn with
  | nil => exact (List.append_nil kept).symm
  | append_singleton entries a ih =>
    have hkeys : key a ∈ (entries.foldl (add key) kept).map key ↔
        key a ∈ kept.map key ∨ key a ∈ entries.map key := by
      rw [ih, ← firsts_eq_firstOccurrences, ← @mem_map_firsts_iff _ _ _ key entries]
      simp only [List.map_append, List.mem_append, List.mem_map, List.mem_filter]
      grind
    rw [List.foldl_append, List.foldl_cons, List.foldl_nil, add,
      firstOccurrences_append_singleton, List.filter_append, ← List.append_assoc, ← ih]
    by_cases hkept : key a ∈ kept.map key <;> by_cases hentries : key a ∈ entries.map key <;>
      simp only [hkeys, hkept, hentries, or_false, or_true, if_true, if_false, List.filter_nil,
        List.filter_singleton, not_true, not_false_eq_true, decide_true, decide_false,
        cond_true, cond_false, List.append_nil]

theorem mem_firsts_id_iff {entries : List κ} {k : κ} : k ∈ firsts id entries ↔ k ∈ entries := by
  have h : k ∈ (firsts id entries).map id ↔ k ∈ entries.map id := mem_map_firsts_iff
  rwa [List.map_id, List.map_id] at h

theorem firsts_id_nodup (entries : List κ) : (firsts id entries).Nodup := by
  have h := map_firsts_nodup id entries
  rwa [List.map_id] at h

/-- The different keys of a list, in the order of their first appearance. -/
def keysOf (key : α → κ) (entries : List α) : List κ :=
  firsts id (entries.map key)

theorem mem_keysOf_iff {key : α → κ} {entries : List α} {k : κ} :
    k ∈ keysOf key entries ↔ k ∈ entries.map key :=
  mem_firsts_id_iff

theorem keysOf_nodup (key : α → κ) (entries : List α) : (keysOf key entries).Nodup :=
  firsts_id_nodup _

theorem head?_keysOf (key : α → κ) (entries : List α) :
    (keysOf key entries).head? = entries.head?.map key := by
  rw [keysOf, head?_firsts, List.head?_map]

theorem keysOf_append_singleton (key : α → κ) (entries : List α) (a : α) :
    keysOf key (entries ++ [a]) = add id (keysOf key entries) (key a) := by
  rw [keysOf, List.map_append, List.map_singleton, firsts_append_singleton, keysOf]

/-- Adding to a group that is there extends it, and the others stay. -/
theorem addToGroup_of_mem {keys : List κ} {groups : κ → List α} {k : κ} {a : α}
    (hnodup : keys.Nodup) (h : k ∈ keys) :
    addToGroup k a (keys.map fun k' => (k', groups k')) =
      keys.map fun k' => (k', if k' = k then groups k' ++ [a] else groups k') := by
  induction keys with
  | nil => cases h
  | cons first rest ih =>
    rw [List.nodup_cons] at hnodup
    rw [List.map_cons, List.map_cons, addToGroup]
    by_cases hfirst : first = k
    · subst hfirst
      rw [if_pos rfl, if_pos rfl]
      refine congrArg _ (List.map_congr_left fun k' hk' => ?_)
      have hne : k' ≠ first := fun heq => hnodup.1 (heq ▸ hk')
      rw [if_neg hne]
    · have hrest : k ∈ rest := (List.mem_cons.mp h).resolve_left (Ne.symm hfirst)
      rw [if_neg hfirst, if_neg hfirst, ih hnodup.2 hrest]

/-- A group that is missing comes last. -/
theorem addToGroup_of_not_mem {keys : List κ} {groups : κ → List α} {k : κ} {a : α}
    (h : k ∉ keys) :
    addToGroup k a (keys.map fun k' => (k', groups k')) =
      (keys.map fun k' => (k', groups k')) ++ [(k, [a])] := by
  induction keys with
  | nil => rfl
  | cons first rest ih =>
    rw [List.mem_cons, not_or] at h
    rw [List.map_cons, addToGroup, if_neg (Ne.symm h.1), ih h.2, List.cons_append]

/-- A list is grouped by its keys, in the order of their first appearance, and the group of a key
is all that has the key, in the order of the list. -/
theorem groupBy_eq (key : α → κ) (entries : List α) :
    groupBy key entries =
      (keysOf key entries).map fun k => (k, entries.filter (key · == k)) := by
  induction entries using List.reverseRecOn with
  | nil => rfl
  | append_singleton entries a ih =>
    have hstep : groupBy key (entries ++ [a]) = addToGroup (key a) a (groupBy key entries) := by
      simp [groupBy]
    have hfilter : ∀ k, (entries ++ [a]).filter (key · == k) =
        if k = key a then entries.filter (key · == k) ++ [a] else entries.filter (key · == k) := by
      intro k
      by_cases hk : k = key a
      · simp [hk]
      · simp [hk, Ne.symm hk]
    rw [hstep, ih, keysOf_append_singleton, add, List.map_id, id]
    simp only [hfilter]
    split
    · rename_i hmem
      exact addToGroup_of_mem (keysOf_nodup key entries) hmem
    · rename_i hnew
      rw [addToGroup_of_not_mem hnew, List.map_append, List.map_singleton, if_pos rfl]
      have hnone : entries.filter (key · == key a) = [] := by
        rw [List.filter_eq_nil_iff]
        intro b hb heq
        exact hnew (mem_keysOf_iff.mpr (beq_iff_eq.mp heq ▸ List.mem_map_of_mem hb))
      rw [hnone, List.nil_append]
      refine congrArg (· ++ _) (List.map_congr_left fun k hk => ?_)
      have hne : k ≠ key a := fun heq => hnew (heq ▸ hk)
      rw [if_neg hne]

/-- A list is shared out among its keys. -/
theorem flatMap_filter_perm {key : α → κ} {keys : List κ} (hkeys : keys.Nodup) {entries : List α}
    (h : ∀ a ∈ entries, key a ∈ keys) :
    (keys.flatMap fun k => entries.filter (key · == k)).Perm entries := by
  induction keys generalizing entries with
  | nil =>
    have hnil : entries = [] := List.eq_nil_iff_forall_not_mem.mpr fun a ha =>
      List.not_mem_nil (h a ha)
    subst hnil
    exact .refl _
  | cons k keys ih =>
    rw [List.nodup_cons] at hkeys
    have hothers : ∀ a ∈ entries.filter (fun a => !(key a == k)), key a ∈ keys := by
      intro a ha
      obtain ⟨ha, hne⟩ := List.mem_filter.mp ha
      exact (List.mem_cons.mp (h a ha)).resolve_left (by simpa using hne)
    -- the groups of the other keys do not change when those of this key are taken out
    have hrest : (keys.flatMap fun k' => entries.filter (key · == k')) =
        keys.flatMap fun k' => (entries.filter fun a => !(key a == k)).filter (key · == k') := by
      refine List.flatMap_congr fun k' hk' => ?_
      rw [List.filter_filter]
      refine List.filter_congr fun a _ => ?_
      have hne : k ≠ k' := fun heq => hkeys.1 (heq ▸ hk')
      by_cases hka : key a = k' <;> simp [hka, hne.symm]
    rw [List.flatMap_cons, hrest]
    exact ((ih hkeys.2 hothers).append_left _).trans (List.filter_append_perm _ _)

/-! ## Entries that stand key by key -/

/-- A list in which the entries for each key stand together, in the order of the keys, is made up of
what there is for each key. -/
theorem eq_flatMap_filter {ι : Type} {key : α → κ} {place : ι → κ} {places : List ι}
    {count : ι → Nat} (hplaces : (places.map place).Nodup) {entries : List α}
    (h : entries.map key = places.flatMap fun i => List.replicate (count i) (place i)) :
    entries = (places.map place).flatMap fun k => entries.filter (key · == k) := by
  induction places generalizing entries with
  | nil => exact List.map_eq_nil_iff.mp h
  | cons i rest ih =>
    rw [List.map_cons, List.nodup_cons] at hplaces
    rw [List.flatMap_cons] at h
    obtain ⟨first, others, rfl, hfirst, hothers⟩ := List.map_eq_append_iff.mp h
    have hkey : ∀ a ∈ first, key a = place i := fun a ha =>
      List.eq_of_mem_replicate (hfirst ▸ List.mem_map_of_mem ha)
    have hrest : ∀ a ∈ others, key a ∈ rest.map place := by
      intro a ha
      have hin : key a ∈ rest.flatMap fun i => List.replicate (count i) (place i) :=
        hothers ▸ List.mem_map_of_mem ha
      obtain ⟨j, hj, hmem⟩ := List.mem_flatMap.mp hin
      exact List.eq_of_mem_replicate hmem ▸ List.mem_map_of_mem hj
    have hhere : (first ++ others).filter (key · == place i) = first := by
      have hall : first.filter (key · == place i) = first :=
        List.filter_eq_self.mpr fun a ha => beq_iff_eq.mpr (hkey a ha)
      have hnone : others.filter (key · == place i) = [] :=
        List.filter_eq_nil_iff.mpr fun a ha heq => hplaces.1 (beq_iff_eq.mp heq ▸ hrest a ha)
      rw [List.filter_append, hall, hnone, List.append_nil]
    have hthere : ∀ k ∈ rest.map place,
        (first ++ others).filter (key · == k) = others.filter (key · == k) := by
      intro k hk
      have hnone : first.filter (key · == k) = [] := by
        refine List.filter_eq_nil_iff.mpr fun a ha heq => hplaces.1 ?_
        exact (hkey a ha).symm.trans (beq_iff_eq.mp heq) ▸ hk
      rw [List.filter_append, hnone, List.nil_append]
    rw [List.map_cons, List.flatMap_cons, hhere, List.flatMap_congr hthere, ← ih hplaces.2 hothers]

/-- Of such a list, the entries whose keys are taken are those of the keys that are. -/
theorem filter_eq_flatMap_filter {key : α → κ} {keys : List κ} {entries : List α}
    (h : entries = keys.flatMap fun k => entries.filter (key · == k)) (p : κ → Bool) :
    entries.filter (fun a => p (key a)) =
      (keys.filter p).flatMap fun k => entries.filter (key · == k) := by
  have hpart : ∀ k, (entries.filter (key · == k)).filter (fun a => p (key a)) =
      if p k then entries.filter (key · == k) else [] := by
    intro k
    cases hk : p k with
    | true =>
      refine List.filter_eq_self.mpr fun a ha => ?_
      rw [beq_iff_eq.mp (List.mem_filter.mp ha).2, hk]
    | false =>
      refine List.filter_eq_nil_iff.mpr fun a ha => ?_
      rw [beq_iff_eq.mp (List.mem_filter.mp ha).2, hk]
      exact Bool.false_ne_true
  have htaken : ∀ keys : List κ,
      (keys.flatMap fun k => entries.filter (key · == k)).filter (fun a => p (key a)) =
        (keys.filter p).flatMap fun k => entries.filter (key · == k) := by
    intro keys
    induction keys with
    | nil => rfl
    | cons k rest ih =>
      rw [List.flatMap_cons, List.filter_append, hpart, ih]
      cases hk : p k <;> simp [hk]
  exact (congrArg (List.filter fun a => p (key a)) h).trans (htaken keys)

/-! ## The last entry for each key -/

theorem ofList_append_singleton (key : α → κ) (entries : List α) (a : α) :
    ofList key (entries ++ [a]) = put key a (ofList key entries) := by
  simp [ofList]

theorem forall₂_put {key : α → κ} {key' : β → κ} {R : α → β → Prop}
    (hkey : ∀ a b, R a b → key a = key' b) {a : α} {b : β} (h : R a b) {kept : List α}
    {kept' : List β} (hkept : List.Forall₂ R kept kept') :
    List.Forall₂ R (put key a kept) (put key' b kept') := by
  induction hkept with
  | nil => exact .cons h .nil
  | cons hfirst hrest ih =>
    rw [put, put, hkey _ _ hfirst, hkey _ _ h]
    split
    · exact .cons h hrest
    · exact .cons hfirst ih

/-- What is kept of lists that agree entry by entry agrees entry by entry. -/
theorem forall₂_ofList {key : α → κ} {key' : β → κ} {R : α → β → Prop}
    (hkey : ∀ a b, R a b → key a = key' b) {entries : List α} {entries' : List β}
    (h : List.Forall₂ R entries entries') :
    List.Forall₂ R (ofList key entries) (ofList key' entries') := by
  have hfold : ∀ kept kept', List.Forall₂ R kept kept' →
      List.Forall₂ R (entries.foldl (fun kept entry => put key entry kept) kept)
        (entries'.foldl (fun kept entry => put key' entry kept) kept') := by
    induction h with
    | nil => exact fun _ _ hkept => hkept
    | cons hfirst _ ih => exact fun _ _ hkept => ih _ _ (forall₂_put hkey hfirst hkept)
  exact hfold [] [] .nil

theorem map_put (key : α → κ) (entry : α) (kept : List α) :
    (put key entry kept).map key = add id (kept.map key) (key entry) := by
  induction kept with
  | nil => rfl
  | cons first rest ih =>
    rw [add, List.map_id] at ih ⊢
    by_cases hfirst : key first = key entry
    · simp [put, hfirst]
    · have hother : key entry ≠ key first := Ne.symm hfirst
      by_cases hin : key entry ∈ rest.map key
      · simp [put, hfirst, hother, ih, hin]
      · simp [put, hfirst, hother, ih, hin]

/-- The keys that are kept are the different keys of the list, in their order. -/
theorem map_ofList (key : α → κ) (entries : List α) :
    (ofList key entries).map key = keysOf key entries := by
  induction entries using List.reverseRecOn with
  | nil => rfl
  | append_singleton entries a ih =>
    rw [ofList_append_singleton, map_put, ih, keysOf_append_singleton]

/-- Where no key stands twice, an entry takes the place of the one for its key only. -/
theorem mem_put_iff {key : α → κ} {entry a : α} {kept : List α} (h : (kept.map key).Nodup) :
    a ∈ put key entry kept ↔ a = entry ∨ (a ∈ kept ∧ key a ≠ key entry) := by
  induction kept with
  | nil => simp [put]
  | cons first rest ih =>
    rw [List.map_cons, List.nodup_cons] at h
    rw [put]
    by_cases hfirst : key first = key entry
    · have hrest : ∀ a ∈ rest, key a ≠ key entry := fun a ha heq =>
        h.1 (hfirst.trans heq.symm ▸ List.mem_map_of_mem ha)
      grind
    · grind

/-- An entry is kept when no later one has its key. -/
theorem mem_ofList_iff {key : α → κ} {entries : List α} {a : α} : a ∈ ofList key entries ↔
    ∃ before after, entries = before ++ a :: after ∧ ∀ later ∈ after, key later ≠ key a := by
  induction entries using List.reverseRecOn with
  | nil => simp [ofList]
  | append_singleton entries last ih =>
    have hnodup : ((ofList key entries).map key).Nodup := by
      rw [map_ofList]
      exact keysOf_nodup key entries
    rw [ofList_append_singleton, mem_put_iff hnodup, ih]
    constructor
    · rintro (rfl | ⟨⟨before, after, rfl, hafter⟩, hlast⟩)
      · exact ⟨entries, [], rfl, nofun⟩
      · refine ⟨before, after ++ [last], by simp, fun later hlater => ?_⟩
        rcases List.mem_append.mp hlater with hlater | hlater
        · exact hafter later hlater
        · exact List.mem_singleton.mp hlater ▸ Ne.symm hlast
    · rintro ⟨before, after, heq, hafter⟩
      rcases List.eq_nil_or_concat after with rfl | ⟨after, x, rfl⟩
      · exact .inl (List.singleton_inj.mp (List.append_inj' heq rfl).2).symm
      · rw [List.concat_eq_append, ← List.cons_append, ← List.append_assoc] at heq
        obtain ⟨rfl, hx⟩ := List.append_inj' heq rfl
        obtain rfl := List.singleton_inj.mp hx
        refine .inr ⟨⟨before, after, rfl, fun later hlater => ?_⟩, Ne.symm ?_⟩
        · exact hafter later (by simp [hlater])
        · exact hafter last (by simp)

end ApiEmit.Keyed
