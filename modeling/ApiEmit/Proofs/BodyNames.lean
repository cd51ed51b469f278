/-
ApiEmit.Proofs.BodyNames — when the names in the body of a class are different.

A name is made to an identifier by itself, whatever its neighbours are called. There are four ways
to get one (`Makes`): the empty name, a keyword, a digit in front, and all the rest, whose
characters are replaced one by one. So two names get one identifier in four ways too (`Clashes`),
and `identifier_eq_iff` says that there is no fifth. A loaded model has no two properties of one
name, and its fields have different names just if no two of its properties clash.
-/
import ApiEmit.Proofs.Identifiers
import ApiEmit.Proofs.WellFormed
import ApiEmit.Pydantic.Definition

namespace ApiEmit

namespace Python

variable {a b name : String} {c : Char} {cs : List Char}

/-! ## Four ways to an identifier -/

/-- A name that is spelled with an underscore, and with no digit in front, is only spelled. -/
theorem toList_identifier_of_mem (h : '_' ∈ spelling a.toList)
    (hdigit : ¬ StartsWithDigit (spelling a.toList)) :
    (identifier a).toList = spelling a.toList := by
  have hne : a ≠ "" := by
    rintro rfl
    cases h
  have hword : a ∉ keywords := by
    intro hword
    obtain ⟨_, hunderscore, _, hchars⟩ := keyword_chars _ hword
    rw [spelling_eq_self hchars] at h
    exact hunderscore h
  rw [startsWithDigit_spelling_iff] at hdigit
  rw [toList_identifier, if_neg hne, if_neg hword, if_neg hdigit]

/-- How a name is made to the characters of an identifier. -/
inductive Makes (name : String) : List Char → Prop
  | empty (h : name = "") : Makes name "_empty".toList
  | keyword (h : name ∈ keywords) : Makes name (name.toList ++ ['_'])
  | digit (h : StartsWithDigit name.toList) : Makes name ('_' :: spelling name.toList)
  | plain : Makes name (spelling name.toList)

theorem makes_identifier (name : String) : Makes name (identifier name).toList := by
  rw [toList_identifier]
  split_ifs with hempty hword hdigit
  · exact .empty hempty
  · exact .keyword hword
  · exact .digit hdigit
  · exact .plain

/-- Two names that one identifier stands for: they are spelled alike, or the first is already
spelled as what the second is made to with an underscore, or in place of nothing. -/
inductive Clashes : String → String → Prop
  | spelled {a b : String} (h : spelling a.toList = spelling b.toList) : Clashes a b
  | digit {a b : String} (hdigit : StartsWithDigit b.toList)
      (h : spelling a.toList = '_' :: spelling b.toList) : Clashes a b
  | keyword {a b : String} (hword : b ∈ keywords) (h : spelling a.toList = b.toList ++ ['_']) :
      Clashes a b
  | empty {a : String} (h : spelling a.toList = "_empty".toList) : Clashes a ""

/-- What is spelled like an identifier of another name clashes with the name. -/
theorem Makes.clashes (h : Makes b cs) (ha : spelling a.toList = cs) : Clashes a b := by
  cases h with
  | empty hb =>
    subst hb
    exact .empty ha
  | keyword hword => exact .keyword hword ha
  | digit hdigit => exact .digit hdigit ha
  | plain => exact .spelled ha

/-- Of two names with one identifier, one is only spelled, or both are made to it in one way. -/
theorem Makes.clashes_or (ha : Makes a cs) (hb : Makes b cs) : Clashes a b ∨ Clashes b a := by
  have hword : ∀ word ∈ keywords, ∀ tail, word.toList ++ ['_'] ≠ '_' :: tail := by
    intro word hword tail heq
    obtain ⟨hne, hunderscore, _, _⟩ := keyword_chars word hword
    have hcons : word.toList ≠ [] := by simpa using hne
    obtain ⟨c, rest, hchars⟩ := List.exists_cons_of_ne_nil hcons
    rw [hchars] at hunderscore heq
    exact hunderscore (by simp [(List.cons.inj heq).1])
  have hdigit : ∀ name : String, StartsWithDigit name.toList →
      '_' :: spelling name.toList ≠ "_empty".toList := by
    intro name hdigit heq
    rw [← startsWithDigit_spelling_iff, (List.cons.inj heq).2] at hdigit
    exact absurd hdigit (by decide)
  generalize hcs : cs = cs' at hb
  cases ha with
  | plain => exact .inl (hb.clashes hcs)
  | empty ha =>
    cases hb with
    | plain =>
      subst ha
      exact .inr (.empty hcs.symm)
    | empty hb => exact .inl (.spelled (by rw [ha, hb]))
    | keyword hb => exact absurd hcs.symm (hword _ hb "empty".toList)
    | digit hb => exact absurd hcs.symm (hdigit _ hb)
  | keyword ha =>
    cases hb with
    | plain => exact .inr (.keyword ha hcs.symm)
    | empty => exact absurd hcs (hword _ ha "empty".toList)
    | keyword => exact .inl (.spelled (congrArg _ (List.append_cancel_right hcs)))
    | digit => exact absurd hcs (hword _ ha _)
  | digit ha =>
    cases hb with
    | plain => exact .inr (.digit ha hcs.symm)
    | empty => exact absurd hcs (hdigit _ ha)
    | keyword hb => exact absurd hcs.symm (hword _ hb _)
    | digit => exact .inl (.spelled (List.cons.inj hcs).2)

/-- Nothing but the spelling of a name counts. -/
theorem identifier_congr (h : spelling a.toList = spelling b.toList) :
    identifier a = identifier b := by
  have hempty : a = "" ↔ b = "" := by
    have hnil : ∀ name : String, name = "" ↔ spelling name.toList = [] := by simp [spelling]
    rw [hnil a, hnil b, h]
  have hdigit : StartsWithDigit a.toList ↔ StartsWithDigit b.toList := by
    rw [← startsWithDigit_spelling_iff, h, startsWithDigit_spelling_iff]
  unfold identifier
  simp only [hempty, identifierChars_eq, hdigit, h]

/-- Names that clash are made to one identifier. -/
theorem Clashes.identifier_eq (h : Clashes a b) : identifier a = identifier b := by
  cases h with
  | spelled h => exact identifier_congr h
  | digit hdigit h =>
    have hb : b ≠ "" ∧ b ∉ keywords := by
      constructor
      · rintro rfl
        exact absurd hdigit (by decide)
      · intro hword
        exact (keyword_chars b hword).2.2.1 hdigit
    apply String.toList_inj.mp
    rw [toList_identifier_of_mem, h, toList_identifier b, if_neg hb.1, if_neg hb.2, if_pos hdigit]
    · simp [h]
    · simp [h, StartsWithDigit]
  | keyword hword h =>
    obtain ⟨hne, _, hdigit, _⟩ := keyword_chars b hword
    apply String.toList_inj.mp
    rw [toList_identifier_of_mem, h, toList_identifier b, if_neg hne, if_pos hword]
    · simp [h]
    · have hcons : b.toList ≠ [] := by simpa using hne
      obtain ⟨c, rest, hchars⟩ := List.exists_cons_of_ne_nil hcons
      simpa [h, hchars, StartsWithDigit] using hdigit
  | empty h =>
    apply String.toList_inj.mp
    rw [toList_identifier_of_mem, h, toList_identifier "", if_pos rfl]
    · simp [h]
    · rw [h]
      decide

/-- **Two names are made to one identifier just if they clash.** -/
theorem identifier_eq_iff : identifier a = identifier b ↔ Clashes a b ∨ Clashes b a := by
  constructor
  · intro h
    have hb := makes_identifier b
    rw [← h] at hb
    exact (makes_identifier a).clashes_or hb
  · rintro (h | h)
    · exact h.identifier_eq
    · exact h.identifier_eq.symm

end Python

namespace Pydantic

open Python (Clashes)

/-! ## Names in a body -/

/-- The names in a body, made from some names: they are different just if none of these clash, and
they are the names themselves where those can be used as they are. -/
structure KeptApart (names made : List String) : Prop where
  nodup_iff : made.Nodup ↔ ∀ a ∈ names, ∀ b ∈ names, Clashes a b → a = b
  eq_of_identifiers : (∀ a ∈ names, Python.isIdentifier a = true) → made = names ∧ made.Nodup

/-- Different names are kept apart. -/
theorem keptApart_identifier {names : List String} (h : names.Nodup) :
    KeptApart names (names.map Python.identifier) where
  nodup_iff := by
    rw [List.nodup_map_iff_inj_on h]
    constructor
    · intro hinj a ha b hb hclash
      exact hinj a ha b hb hclash.identifier_eq
    · intro hclash a ha b hb heq
      rcases Python.identifier_eq_iff.mp heq with hab | hba
      · exact hclash a ha b hb hab
      · exact (hclash b hb a ha hba).symm
  eq_of_identifiers := by
    intro hall
    have hsame : names.map Python.identifier = names := by
      rw [List.map_congr_left fun a ha => Python.identifier_eq_self (hall a ha), List.map_id']
    rw [hsame]
    exact ⟨rfl, h⟩

/-- **The fields of a loaded model have different names just if no two of its properties clash**,
and so have the members of an enum whose names are different. -/
theorem bodyNames_keptApart {doc : Document} {g : Graph} (h : Graph.ofDocument doc = .ok g) :
    (∀ id m, g.model? id = some m → (m.properties.map (·.name)).Nodup ∧ ∀ names name,
      KeptApart (m.properties.map (·.name)) ((classDef g names name m).fields.map (·.name))) ∧
    ∀ id e, g.enum? id = some e → (e.members.map (·.name)).Nodup → ∀ name,
      KeptApart (e.members.map (·.name)) ((enumDef name e).members.map (·.name)) := by
  constructor
  · intro id m hm
    have hnodup := Graph.propertyNames_nodup h hm
    refine ⟨hnodup, fun names name => ?_⟩
    have hfields : (classDef g names name m).fields.map (·.name) =
        (m.properties.map (·.name)).map Python.identifier := by
      simp [classDef, field]
    rw [hfields]
    exact keptApart_identifier hnodup
  · intro id e _ hnodup name
    have hmembers : (enumDef name e).members.map (·.name) =
        (e.members.map (·.name)).map Python.identifier := by
      simp [enumDef]
    rw [hmembers]
    exact keptApart_identifier hnodup

/-- Tickets with a seat and a class, one of whose names is a keyword and one starts with a digit. -/
def tickets : Document :=
  { root :=
      { name := ""
        enums := [⟨"Fare", none, [⟨"1st", none⟩, ⟨"2nd", none⟩]⟩]
        models := [⟨"Ticket", none, none, none, [⟨"seat", .ref "string", false, none, none, {}⟩,
          ⟨"class", .ref "Fare", false, none, none, {}⟩], {}⟩] }
    diagnostics := [] }

theorem bodyNames_keptApart_tickets :
    ∃ g, Graph.ofDocument tickets = .ok g ∧
      (∃ id m, g.model? id = some m ∧ (∀ names name, KeptApart ["seat", "class"]
        ((classDef g names name m).fields.map (·.name))) ∧
        ∀ names name, (classDef g names name m).fields.map (·.name) = ["seat", "class_"]) ∧
      ∃ id e, g.enum? id = some e ∧ (e.members.map (·.name)).Nodup ∧ (∀ name,
        KeptApart ["1st", "2nd"] ((enumDef name e).members.map (·.name))) ∧
        ∀ name, (enumDef name e).members.map (·.name) = ["_1st", "_2nd"] := by
  have hg : Graph.ofDocument tickets = .ok _ := rfl
  obtain ⟨hmodels, henums⟩ := bodyNames_keptApart hg
  have hnodup : ["1st", "2nd"].Nodup := by decide
  exact ⟨_, hg, ⟨⟨.root, "Ticket"⟩, _, rfl, (hmodels ⟨.root, "Ticket"⟩ _ rfl).2, fun _ _ => rfl⟩,
    ⟨.root, "Fare"⟩, _, rfl, hnodup, henums ⟨.root, "Fare"⟩ _ rfl hnodup, fun _ => rfl⟩

/-- Bookings with two properties, and fares, whose names differ in a hyphen only. -/
def bookings : Document :=
  { root :=
      { name := ""
        enums := [⟨"Fare", none, [⟨"first-class", none⟩, ⟨"first_class", none⟩]⟩]
        models := [⟨"Booking", none, none, none,
          [⟨"seat-row", .ref "string", false, none, none, {}⟩,
            ⟨"seat_row", .ref "string", false, none, none, {}⟩], {}⟩] }
    diagnostics := [] }

/-- A hyphen and an underscore are spelled alike, so a class can have two fields of one name, and an
enum two members, although the names they are made from are different. -/
theorem bodyNames_merged_bookings :
    ∃ g, Graph.ofDocument bookings = .ok g ∧
      (∃ id m, g.model? id = some m ∧ ∀ names name,
        (classDef g names name m).fields.map (·.name) = ["seat_row", "seat_row"]) ∧
      ∃ id e, g.enum? id = some e ∧ (e.members.map (·.name)).Nodup ∧
        ∀ name, (enumDef name e).members.map (·.name) = ["first_class", "first_class"] := by
  have hg : Graph.ofDocument bookings = .ok _ := rfl
  have hnodup : ["first-class", "first_class"].Nodup := by decide
  exact ⟨_, hg, ⟨⟨.root, "Booking"⟩, _, rfl, fun _ _ => rfl⟩,
    ⟨.root, "Fare"⟩, _, rfl, hnodup, fun _ => rfl⟩

end Pydantic

end ApiEmit
