/-
ApiEmit.Proofs.ExampleTable — the example of a payload beside its table of properties.

The example of a model has a member for each of its properties that has an example itself, in
their order (`Shows`). Only a property that comes down to a type without values is left out. A
model with values under further keys is the exception: its example has one such value and none of
its properties, though the table lists them all.
-/
import ApiEmit.Proofs.ProgramTypes
import ApiEmit.Proofs.Synthesis
import ApiEmit.Reference.Document

namespace ApiEmit

open Json (Value)
open Reference
open Reference.Markdown (block fence)
open Relation (ReflTransGen)

namespace Graph

variable {doc : Document} {g : Graph} {t : Ty} {properties : List Property} {d : Nat}

/-- A type without values, or a choice that takes one. -/
def Valueless (g : Graph) (t : Ty) : Prop :=
  ReflTransGen g.Takes t (.intrinsic .void) ∨ ReflTransGen g.Takes t (.intrinsic .never)

/-- A type with properties is a declared model, an inline model, or a container. -/
theorem properties?_cases (h : g.properties? t = some properties) :
    (∃ id m, t = .ref id ∧ g.model? id = some m ∧ properties = m.properties) ∨
      (∃ inline, t = .model inline ∧ properties = inline.map Property.ofInline) ∨
      ((∃ element, t = .array element) ∨ ∃ value, t = .record value) ∧ properties = [] := by
  cases t with
  | ref id =>
    obtain ⟨m, hm, rfl⟩ := Option.map_eq_some_iff.mp h
    exact .inl ⟨id, m, rfl, hm, rfl⟩
  | model inline =>
    cases h
    exact .inr (.inl ⟨inline, rfl, rfl⟩)
  | array element =>
    cases h
    exact .inr (.inr ⟨.inl ⟨element, rfl⟩, rfl⟩)
  | record value =>
    cases h
    exact .inr (.inr ⟨.inr ⟨value, rfl⟩, rfl⟩)
  | intrinsic | string | number | boolean | union => cases h

theorem alternatives?_of_properties? (h : g.properties? t = some properties) :
    g.alternatives? t = none := by
  obtain ⟨id, m, rfl, hm, _⟩ | ⟨_, rfl, _⟩ | ⟨⟨_, rfl⟩ | ⟨_, rfl⟩, _⟩ := properties?_cases h
  · simp [alternatives?, union?, model?_eq_some_iff.mp hm]
  all_goals rfl

/-- Properties are members of the example where there is no value under further keys. -/
theorem members?_of_properties? (h : g.properties? t = some properties)
    (hlist : element? t = none) (hindexer : g.stringIndexer? t = none) :
    g.members? t = some (properties.map fun p => (p.name, p.type)) := by
  obtain ⟨id, m, rfl, hm, rfl⟩ | ⟨inline, rfl, rfl⟩ | ⟨⟨_, rfl⟩ | ⟨_, rfl⟩, _⟩ :=
    properties?_cases h
  · have hnone : m.indexer = none := by simpa [stringIndexer?, hm] using hindexer
    simp [members?, hm, hnone]
  · simp [members?, Property.ofInline, Function.comp_def]
  · cases hlist
  · cases hindexer

theorem members?_of_stringIndexer? {value : Ty} (h : g.stringIndexer? t = some value) :
    g.members? t = some [("key", value)] := by
  cases t with
  | ref id =>
    obtain ⟨m, hm, hindexer⟩ := Option.bind_eq_some_iff.mp h
    simp [members?, hm, hindexer]
  | record =>
    cases h
    rfl
  | array | model | intrinsic | string | number | boolean | union => cases h

/-- No two properties of a type of a loaded program have one name. -/
theorem names_nodup_of_properties? (hload : Graph.ofDocument doc = .ok g) (ht : t ∈ g.types)
    (h : g.properties? t = some properties) : (properties.map (·.name)).Nodup := by
  obtain ⟨id, m, rfl, hm, rfl⟩ | ⟨inline, rfl, rfl⟩ | ⟨_, rfl⟩ := properties?_cases h
  · exact propertyNames_nodup hload hm
  · rw [List.map_map]
    exact inlineNames_nodup hload ht
  · exact List.nodup_nil

end Graph

namespace Reference

variable {doc : Document} {g : Graph} {t : Ty} {properties : List Property} {d : Nat}
  {v : Option Value}

/-- Of the types that are no choice only those without values have no example. -/
theorem eq_of_build_eq_none (ht : t ∈ g.types) (hts : g.alternatives? t = none)
    {inner : Ty → Option Value} (h : build g inner t = none) :
    t = .intrinsic .void ∨ t = .intrinsic .never := by
  cases t with
  | union => cases hts
  | array | record | model | string | number | boolean => cases h
  | intrinsic i =>
    cases i with
    | void => exact .inl rfl
    | never => exact .inr rfl
    | null | unknown | error => cases h
  | ref id =>
    obtain ⟨declaration, hd⟩ := Graph.exists_declaration?_of_mem_types ht
    cases declaration with
    | model m => simp [build, Graph.element?, Graph.members?, Graph.model?, hd] at h
    | scalar | enum =>
      simp [build, Graph.element?, Graph.members?, Graph.model?, plainExample?, hd] at h
    | union => simp [Graph.alternatives?, Graph.union?, hd] at hts

/-- Where no example is made, a type without values is taken in the end. -/
theorem Synthesizes.valueless (hload : Graph.ofDocument doc = .ok g) (ht : t ∈ g.types)
    (h : Synthesizes g d t none) : g.Valueless t := by
  generalize hnone : none = result at h
  induction h with
  | capped | null => cases hnone
  | takes _ htakes _ ih =>
    have hinner := ih (Graph.mem_types_of_opens hload ht htakes.opens) hnone
    exact hinner.imp (.head htakes) (.head htakes)
  | built _ hts =>
    rcases eq_of_build_eq_none ht hts hnone.symm with rfl | rfl
    · exact .inl .refl
    · exact .inr .refl

/-- The members of the example of a model at a depth: the properties that have an example one
level deeper. -/
def shown (g : Graph) (d : Nat) (properties : List Property) : List (String × Value) :=
  properties.filterMap fun p => (example? g p.type (d + 1)).map (p.name, ·)

/-- At a depth, properties are what an example shows: one member for each that has an example one
level deeper, with that example, and only properties without values are missing. -/
structure Shows (g : Graph) (d : Nat) (properties : List Property) (v : Option Value) : Prop where
  /-- The example has these members and no others. -/
  eq : v = some (.object (shown g d properties))
  /-- No two members have one name. -/
  names_nodup : (properties.map (·.name)).Nodup
  /-- One level deeper every example is made. -/
  made : ∀ p ∈ properties, Synthesizes g (d + 1) p.type (example? g p.type (d + 1))
  /-- What is missing has no values. -/
  valueless : ∀ p ∈ properties, p.name ∉ (shown g d properties).map (·.1) → g.Valueless p.type

/-- What is made for a model is built from what is made for the types nested in it. -/
theorem Synthesizes.of_alternatives?_eq_none (hd : d < maxExampleDepth)
    (hts : g.alternatives? t = none) (h : Synthesizes g d t v) :
    v = build g (fun t' => example? g t' (d + 1)) t ∧
      ∀ t' ∈ g.nested t, Synthesizes g (d + 1) t' (example? g t' (d + 1)) := by
  cases h with
  | capped hcap => omega
  | takes _ htakes =>
    obtain ⟨_, hsome, _⟩ := htakes
    rw [hts] at hsome
    cases hsome
  | null _ hsome =>
    rw [hts] at hsome
    cases hsome
  | built _ _ hinner =>
    refine ⟨build_congr fun t' ht' => (hinner t' ht').eq.symm, fun t' ht' => ?_⟩
    rw [(hinner t' ht').eq]
    exact hinner t' ht'

/-- Without further keys, what is made for a model shows its properties. -/
theorem Synthesizes.shows (hload : Graph.ofDocument doc = .ok g) (ht : t ∈ g.types)
    (hproperties : g.properties? t = some properties) (hlist : Graph.element? t = none)
    (hindexer : g.stringIndexer? t = none) (hd : d < maxExampleDepth) (h : Synthesizes g d t v) :
    Shows g d properties v := by
  have hmembers := Graph.members?_of_properties? hproperties hlist hindexer
  obtain ⟨heq, hmade⟩ :=
    h.of_alternatives?_eq_none hd (Graph.alternatives?_of_properties? hproperties)
  have hnested : ∀ p ∈ properties, p.type ∈ g.nested t := fun p hp =>
    Graph.mem_nested_of_member hmembers (List.mem_map_of_mem hp)
  refine
    { eq := ?eq
      names_nodup := Graph.names_nodup_of_properties? hload ht hproperties
      made := fun p hp => hmade p.type (hnested p hp)
      valueless := fun p hp hmissing => ?valueless }
  case eq =>
    rw [heq, build, hlist, hmembers]
    simp only [objectOf, shown, List.filterMap_map, Function.comp_def]
  case valueless =>
    have hnone : example? g p.type (d + 1) = none := by
      cases hvalue : example? g p.type (d + 1) with
      | none => rfl
      | some value =>
        refine absurd (List.mem_map.mpr ⟨(p.name, value), ?_, rfl⟩) hmissing
        exact List.mem_filterMap.mpr ⟨p, hp, by rw [hvalue]; rfl⟩
    have htype := Graph.mem_types_of_opens hload ht (Graph.ExampleLeads.opens (.inr (hnested p hp)))
    exact (hnone ▸ hmade p.type (hnested p hp)).valueless hload htype

/-- A payload in JSON is described by an example with the table of its properties behind it. -/
theorem bodyLines_of_json {b : Body} {value : Value} (hjson : isJsonContent b.contentTypes = true)
    (hexample : example? g b.type 0 = some value)
    (hproperties : g.properties? b.type = some properties) :
    ∃ front, bodyLines g b = front ++ block [fence "json", value.pretty, fence ""] ++
      if properties.isEmpty then [] else propertyTable g properties := by
  refine ⟨if b.contentTypes.isEmpty then [] else
    block ["Content-Type: " ++ String.intercalate ", " b.contentTypes], ?_⟩
  rw [bodyLines, hexample, hproperties, if_pos hjson]
  cases properties <;> rfl

/-- **The example of a model shows the properties that its table lists**, but for those without
values, unless the model has values under further keys: then it shows one of these and nothing
else. -/
theorem example_shows_properties (hload : Graph.ofDocument doc = .ok g) (ht : t ∈ g.types)
    (hproperties : g.properties? t = some properties) (hlist : Graph.element? t = none)
    (hd : d < maxExampleDepth) (h : Synthesizes g d t v) :
    (g.stringIndexer? t = none → Shows g d properties v ∧
      (d = 0 → ∀ b : Body, b.type = t → isJsonContent b.contentTypes = true →
        ∃ front, bodyLines g b = front ++
          block [fence "json", (Value.object (shown g 0 properties)).pretty, fence ""] ++
          if properties.isEmpty then [] else propertyTable g properties)) ∧
    ∀ value, g.stringIndexer? t = some value →
      v = some (objectOf [("key", example? g value (d + 1))]) := by
  refine ⟨fun hindexer => ?_, fun value hindexer => ?_⟩
  · have hshows := h.shows hload ht hproperties hlist hindexer hd
    refine ⟨hshows, ?_⟩
    rintro rfl b rfl hjson
    exact bodyLines_of_json hjson (h.eq.trans hshows.eq) hproperties
  · obtain ⟨heq, _⟩ :=
      h.of_alternatives?_eq_none hd (Graph.alternatives?_of_properties? hproperties)
    rw [heq, build, hlist, Graph.members?_of_stringIndexer? hindexer]
    rfl

/-- A profile with a value that is kept back, and settings: a theme, and texts under further
keys. -/
def profiles : Document :=
  { root :=
      { name := ""
        models := [
          ⟨"Profile", none, none, none,
            [⟨"name", .ref "string", false, none, none, {}⟩,
              ⟨"secret", .union [.intrinsic "never", .ref "string"], false, none, none, {}⟩,
              ⟨"settings", .ref "Settings", false, none, none, {}⟩], {}⟩,
          ⟨"Settings", none, none, some (.ref "string"),
            [⟨"theme", .ref "int32", false, none, none, {}⟩], {}⟩] }
    diagnostics := [] }

theorem example_shows_properties_profiles : ∃ g properties v,
    Graph.ofDocument profiles = .ok g ∧ atRoot "Profile" ∈ g.types ∧
    g.properties? (atRoot "Profile") = some properties ∧
    Graph.element? (atRoot "Profile") = none ∧ 0 < maxExampleDepth ∧
    Synthesizes g 0 (atRoot "Profile") v ∧ g.stringIndexer? (atRoot "Profile") = none ∧
    Shows g 0 properties v ∧ ∃ front, bodyLines g ⟨atRoot "Profile", ["application/json"]⟩ =
      front ++ block [fence "json", (Value.object (shown g 0 properties)).pretty, fence ""] ++
        if properties.isEmpty then [] else propertyTable g properties := by
  obtain ⟨g, properties, hg, hdeclared, hproperties, hindexer, hsettles⟩ : ∃ g properties,
      Graph.ofDocument profiles = .ok g ∧ (g.declaration? ⟨.root, "Profile"⟩).isSome = true ∧
      g.properties? (atRoot "Profile") = some properties ∧
      g.stringIndexer? (atRoot "Profile") = none ∧
      ((g.within (atRoot "Profile")).all fun t => (settle? g t).isSome) = true :=
    ⟨_, _, rfl, by decide, rfl, rfl, by decide⟩
  have hmem : atRoot "Profile" ∈ g.types := Graph.mem_types_of_isSome hdeclared
  have hmade : Synthesizes g 0 (atRoot "Profile") _ :=
    synthesizes_example? (not_takes_self_of_settles hsettles)
  obtain ⟨hshows, hbody⟩ :=
    (example_shows_properties hg hmem hproperties rfl (by decide) hmade).1 hindexer
  exact ⟨g, properties, _, hg, hmem, hproperties, rfl, by decide, hmade, hindexer, hshows,
    hbody rfl _ rfl (by decide)⟩

/-- Settings have further values, so their theme is in the table but not in the example. -/
theorem example_hides_theme : ∃ g properties v,
    Graph.ofDocument profiles = .ok g ∧ atRoot "Settings" ∈ g.types ∧
    g.properties? (atRoot "Settings") = some properties ∧
    Graph.element? (atRoot "Settings") = none ∧ g.mapValue? (atRoot "Settings") = none ∧
    0 < maxExampleDepth ∧ Synthesizes g 0 (atRoot "Settings") v ∧
    properties.map (·.name) = ["theme"] ∧ v = some (.object [("key", .string "string")]) ∧
    ¬ Shows g 0 properties v := by
  obtain ⟨g, properties, hg, hdeclared, hproperties, hmap, hnames, hvalue, hshown, hsettles⟩ :
      ∃ g properties, Graph.ofDocument profiles = .ok g ∧
      (g.declaration? ⟨.root, "Settings"⟩).isSome = true ∧
      g.properties? (atRoot "Settings") = some properties ∧
      g.mapValue? (atRoot "Settings") = none ∧ properties.map (·.name) = ["theme"] ∧
      example? g (atRoot "Settings") 0 = some (.object [("key", .string "string")]) ∧
      (shown g 0 properties).map (·.1) = ["theme"] ∧
      ((g.within (atRoot "Settings")).all fun t => (settle? g t).isSome) = true :=
    ⟨_, _, rfl, by decide, rfl, rfl, rfl, rfl, by decide, by decide⟩
  have hmem : atRoot "Settings" ∈ g.types := Graph.mem_types_of_isSome hdeclared
  have hmade : Synthesizes g 0 (atRoot "Settings") (example? g (atRoot "Settings") 0) :=
    synthesizes_example? (not_takes_self_of_settles hsettles)
  rw [hvalue] at hmade
  refine ⟨g, properties, _, hg, hmem, hproperties, rfl, hmap, by decide, hmade, hnames, rfl, ?_⟩
  intro hshows
  have hmembers : [("key", Value.string "string")] = shown g 0 properties :=
    Value.object.inj (Option.some.inj hshows.eq)
  rw [← hmembers] at hshown
  exact absurd hshown (by decide)

end Reference

end ApiEmit
