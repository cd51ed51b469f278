/-
ApiEmit.Proofs.CommonErrors — what is written for an error in place of the response.

A common error is written with the lines of the first response that has its fingerprint. The
fingerprint gives the status, and where the texts in it can be told apart also the types and
properties as they are shown (`outlines_eq_of_fingerprint_eq`). All else that a response would be
written with is not in it, so the lines need not be those of the response.
-/
import ApiEmit.Graph.Load
import ApiEmit.Proofs.Joined
import ApiEmit.Proofs.ServiceDocument
import ApiEmit.Reference.Emission

namespace ApiEmit

/-! ## Statuses -/

namespace StatusCode

theorem not_mem_toList_toString {c : Char} (hc : c.isDigit = false) (n : Nat) :
    c ∉ (toString n).toList := by
  rw [Nat.toString_eq_ofList_toDigits, String.toList_ofList]
  intro hmem
  rw [Nat.isDigit_of_mem_toDigits (by decide : 0 < 10) (by decide) hmem] at hc
  cases hc

theorem toString_nat_inj {n m : Nat} (h : toString n = toString m) : n = m := by
  rw [Nat.toString_eq_ofList_toDigits, Nat.toString_eq_ofList_toDigits, String.ofList_inj] at h
  calc n = Nat.ofDigitChars 10 (Nat.toDigits 10 n) 0 := Nat.ofDigitChars_ten_toDigits.symm
    _ = Nat.ofDigitChars 10 (Nat.toDigits 10 m) 0 := by rw [h]
    _ = m := Nat.ofDigitChars_ten_toDigits

theorem hyphen_mem_text_range (first last : Nat) : '-' ∈ (range first last).text.toList := by
  simp [text]

theorem not_bar_mem_text (status : StatusCode) : '|' ∉ status.text.toList := by
  have hnat : ∀ n : Nat, '|' ∉ (toString n).toList := not_mem_toList_toString rfl
  cases status with
  | code n => exact hnat n
  | range first last =>
    simp only [text, String.toList_append, List.mem_append, not_or]
    exact ⟨⟨hnat first, by decide⟩, hnat last⟩
  | wildcard => decide

/-- A status can be read back from its text. -/
theorem text_inj {status status' : StatusCode} (h : status.text = status'.text) :
    status = status' := by
  have hhyphen : ∀ n, '-' ∉ (code n).text.toList := not_mem_toList_toString rfl
  have hstar : ∀ n, '*' ∉ (code n).text.toList := not_mem_toList_toString rfl
  have hrange := hyphen_mem_text_range
  cases status with
  | code n =>
    cases status' with
    | code m => rw [toString_nat_inj h]
    | range first last => exact absurd (hrange first last) (h ▸ hhyphen n)
    | wildcard => exact absurd List.mem_cons_self (h ▸ hstar n)
  | range first last =>
    cases status' with
    | code m => exact absurd (hrange first last) (h ▸ hhyphen m)
    | range first' last' =>
      obtain ⟨hfirst, hlast⟩ := Text.append_separator_inj (hhyphen first) (hhyphen first') h
      rw [toString_nat_inj hfirst, toString_nat_inj hlast]
    | wildcard => exact absurd (hrange first last) (h ▸ by decide)
  | wildcard =>
    cases status' with
    | code m => exact absurd List.mem_cons_self (h ▸ hstar m)
    | range first last => exact absurd (hrange first last) (h ▸ by decide)
    | wildcard => rfl

end StatusCode

namespace Reference

open Markdown (block cell code fence heading row rule)

variable {g : Graph} {s : Service} {b b' : Body} {r r' : Response}

/-! ## Outlines -/

/-- What a fingerprint has of a payload: its type as shown, and its properties with their types. -/
@[ext]
structure Outline where
  type : String
  properties : List (String × String)
  deriving DecidableEq

namespace Outline

/-- The text for a property. -/
def propertyText (p : String × String) : String := p.1 ++ ":" ++ p.2

/-- The texts for a payload. -/
def texts (o : Outline) : List String := o.type :: o.properties.map propertyText

/-- The texts can be told apart: there is no separator in the type of the payload or in a name, and
no comma in the type of a property. -/
def Legible (o : Outline) : Prop :=
  (Text.IsPart ',' o.type ∧ ':' ∉ o.type.toList) ∧
    ∀ p ∈ o.properties, ',' ∉ p.1.toList ∧ ':' ∉ p.1.toList ∧ ',' ∉ p.2.toList

instance (o : Outline) : Decidable o.Legible := inferInstanceAs (Decidable (_ ∧ _))

theorem colon_mem_propertyText (p : String × String) : ':' ∈ (propertyText p).toList := by
  simp [propertyText]

theorem Legible.isPart {o : Outline} (h : o.Legible) : ∀ text ∈ o.texts, Text.IsPart ',' text := by
  intro text htext
  rcases List.mem_cons.mp htext with rfl | hproperty
  · exact h.1.1
  · obtain ⟨p, hp, rfl⟩ := List.mem_map.mp hproperty
    obtain ⟨hname, _, htype⟩ := h.2 p hp
    refine ⟨fun hempty => ?_, ?_⟩
    · have hcolon := colon_mem_propertyText p
      rw [hempty] at hcolon
      cases hcolon
    · simp [propertyText, String.toList_append, hname, htype]

/-- Where the texts for properties end, a payload follows or nothing. -/
theorem colon_not_mem_of_texts_eq {outlines : List Outline} (h : ∀ o ∈ outlines, o.Legible)
    {text : String} {rest : List String} (heq : outlines.flatMap texts = text :: rest) :
    ':' ∉ text.toList := by
  cases outlines with
  | nil => cases heq
  | cons o others =>
    obtain ⟨rfl, _⟩ := List.cons.inj heq
    exact (h o List.mem_cons_self).1.2

/-- The properties of a payload can be told from what follows it. -/
theorem properties_inj {properties properties' : List (String × String)}
    {others others' : List Outline} (hothers : ∀ o ∈ others, o.Legible)
    (hothers' : ∀ o ∈ others', o.Legible) (h : ∀ p ∈ properties, ':' ∉ p.1.toList)
    (h' : ∀ p ∈ properties', ':' ∉ p.1.toList)
    (heq : properties.map propertyText ++ others.flatMap texts =
      properties'.map propertyText ++ others'.flatMap texts) :
    properties = properties' ∧ others.flatMap texts = others'.flatMap texts := by
  induction properties generalizing properties' with
  | nil =>
    cases properties' with
    | nil => exact ⟨rfl, heq⟩
    | cons p' rest' =>
      exact absurd (colon_mem_propertyText p') (colon_not_mem_of_texts_eq hothers heq)
  | cons p rest ih =>
    cases properties' with
    | nil =>
      exact absurd (colon_mem_propertyText p) (colon_not_mem_of_texts_eq hothers' heq.symm)
    | cons p' rest' =>
      rw [List.forall_mem_cons] at h h'
      obtain ⟨hfirst, hrest⟩ := List.cons.inj heq
      obtain ⟨rfl, hfollowing⟩ := ih h.2 h'.2 hrest
      obtain ⟨hname, htype⟩ := Text.append_separator_inj h.1 h'.1 hfirst
      rw [Prod.ext hname htype]
      exact ⟨rfl, hfollowing⟩

/-- Outlines can be read back from their texts. -/
theorem texts_inj {outlines outlines' : List Outline} (h : ∀ o ∈ outlines, o.Legible)
    (h' : ∀ o ∈ outlines', o.Legible) (heq : outlines.flatMap texts = outlines'.flatMap texts) :
    outlines = outlines' := by
  induction outlines generalizing outlines' with
  | nil =>
    cases outlines' with
    | nil => rfl
    | cons => cases heq
  | cons o others ih =>
    cases outlines' with
    | nil => cases heq
    | cons o' others' =>
      rw [List.forall_mem_cons] at h h'
      obtain ⟨htype, hrest⟩ := List.cons.inj heq
      obtain ⟨hproperties, hothers⟩ := properties_inj h.2 h'.2
        (fun p hp => (h.1.2 p hp).2.1) (fun p hp => (h'.1.2 p hp).2.1) hrest
      rw [ih h.2 h'.2 hothers, Outline.ext htype hproperties]

end Outline

/-- The properties that a payload is shown with. -/
def shownProperties (g : Graph) (b : Body) : List Property := (g.properties? b.type).getD []

/-- The outline of a payload. -/
def outline (g : Graph) (b : Body) : Outline :=
  ⟨typeName g b.type, (shownProperties g b).map fun p => (p.name, typeName g p.type)⟩

/-- The outlines of the payloads of a response. -/
def outlines (g : Graph) (r : Response) : List Outline := r.bodies.map (outline g)

theorem fingerprint_eq (g : Graph) (r : Response) : fingerprint g r =
    r.status.text ++ "|" ++ Text.join ',' ((outlines g r).flatMap Outline.texts) := by
  have hbody : ∀ b, bodyPrint g b = (outline g b).texts := by
    intro b
    unfold bodyPrint Outline.texts outline
    rw [List.map_map]
    rfl
  unfold fingerprint outlines
  rw [List.flatMap_map, List.flatMap_congr fun b _ => hbody b]
  rfl

theorem fingerprint_inj (h : fingerprint g r = fingerprint g r') : r.status = r'.status ∧
    Text.join ',' ((outlines g r).flatMap Outline.texts) =
      Text.join ',' ((outlines g r').flatMap Outline.texts) := by
  rw [fingerprint_eq, fingerprint_eq] at h
  obtain ⟨hstatus, houtlines⟩ := Text.append_separator_inj
    r.status.not_bar_mem_text r'.status.not_bar_mem_text h
  exact ⟨StatusCode.text_inj hstatus, houtlines⟩

/-- The outlines of a response can be read back from its fingerprint. -/
theorem outlines_eq_of_fingerprint_eq (hr : ∀ o ∈ outlines g r, o.Legible)
    (hr' : ∀ o ∈ outlines g r', o.Legible) (h : fingerprint g r = fingerprint g r') :
    outlines g r = outlines g r' := by
  have hpart : ∀ {r : Response}, (∀ o ∈ outlines g r, o.Legible) →
      ∀ text ∈ (outlines g r).flatMap Outline.texts, Text.IsPart ',' text := by
    intro r hr text htext
    obtain ⟨o, ho, htext⟩ := List.mem_flatMap.mp htext
    exact (hr o ho).isPart text htext
  obtain ⟨_, hjoined⟩ := fingerprint_inj h
  exact Outline.texts_inj hr hr' (Text.join_inj (hpart hr) (hpart hr') hjoined)

/-! ## What is not in a fingerprint -/

/-- What a payload is written with beside its outline: the content types, the example, and for each
property whether it has to be given and what is said about it. -/
@[ext]
structure Particulars where
  contentTypes : List String
  example? : Option Json.Value
  properties : List (Bool × String)

/-- The particulars of a payload. -/
def particulars (g : Graph) (b : Body) : Particulars :=
  ⟨b.contentTypes, example? g b.type 0,
    (shownProperties g b).map fun p => (p.optional, describe g p.doc p.type)⟩

/-- The row of a property, from what its outline and its particulars say. -/
def rowOf (shown : (String × String) × (Bool × String)) : String :=
  row [cell shown.1.1, code (cell shown.1.2), requiredText shown.2.1, cell shown.2.2]

/-- The lines of a payload, from its outline and its particulars. -/
def payloadLines (payload : Outline × Particulars) : List String :=
  let (o, p) := payload
  (if p.contentTypes.isEmpty then [] else
    block ["Content-Type: " ++ String.intercalate ", " p.contentTypes]) ++
  (if isJsonContent p.contentTypes then
    match p.example? with
    | some value => block [fence "json", value.pretty, fence ""]
    | none => []
  else []) ++
  (if o.properties.isEmpty then [] else
    block (row ["Property", "Type", "Required", "Description"] :: rule 4 ::
      (o.properties.zip p.properties).map rowOf))

theorem bodyLines_eq (g : Graph) (b : Body) :
    bodyLines g b = payloadLines (outline g b, particulars g b) := by
  have hrows : ∀ properties : List Property, properties.map (propertyRow g) =
      ((properties.map fun p => (p.name, typeName g p.type)).zip
        (properties.map fun p => (p.optional, describe g p.doc p.type))).map rowOf := by
    intro properties
    rw [List.zip_map', List.map_map]
    rfl
  unfold bodyLines payloadLines outline particulars shownProperties
  dsimp only
  rw [← hrows]
  rcases g.properties? b.type with _ | _ | ⟨first, rest⟩
  · rfl
  · rfl
  · rfl

/-- What a response is written with beside its status and its outlines: the description, and the
particulars of its payloads. -/
def details (g : Graph) (r : Response) : Option String × List Particulars :=
  (r.description.or (statusDescription? r.status), r.bodies.map (particulars g))

/-- A response is written from its status, its outlines and its details. -/
theorem responseLines_congr (hstatus : r.status = r'.status)
    (houtlines : outlines g r = outlines g r') (hdetails : details g r = details g r') :
    responseLines g r = responseLines g r' := by
  obtain ⟨hdescription, hparticulars⟩ := Prod.mk.inj hdetails
  have hbodies : ∀ r : Response, r.bodies.flatMap (bodyLines g) =
      ((outlines g r).zip (r.bodies.map (particulars g))).flatMap payloadLines := by
    intro r
    rw [outlines, List.zip_map', List.flatMap_map]
    exact List.flatMap_congr fun b _ => bodyLines_eq g b
  unfold responseLines
  rw [hbodies, hbodies, houtlines, hparticulars, hdescription, hstatus]

/-! ## The lines that stand for a response -/

/-- A response that is left out of its operation has the fingerprint of a common error. -/
theorem exists_mem_commonResponses {operations : List Operation}
    (h : isHoisted g (commonErrors g operations) r = true) : ∃ first,
      (errors g operations).find? (·.1 == fingerprint g r) = some (fingerprint g r, first) ∧
        (fingerprint g r, first) ∈ commonResponses g operations := by
  rw [isHoisted_eq, decide_eq_true_eq] at h
  have hprint : fingerprint g r ∈ commonPrints g operations := mem_commonPrints_iff.mpr h.2
  obtain ⟨hkey, _⟩ := List.mem_filter.mp hprint
  obtain ⟨first, hfirst⟩ := exists_find?_errors (Keyed.mem_keysOf_iff.mp hkey)
  exact ⟨first, hfirst, List.mem_filterMap.mpr ⟨_, hprint, hfirst⟩⟩

theorem lookup_commonErrors {operations : List Operation} {entry : String × Response}
    (h : entry ∈ commonResponses g operations) :
    (commonErrors g operations).lookup entry.1 = some (responseLines g entry.2) := by
  have hkeys : ((commonErrors g operations).map (·.1)).Nodup := by
    rw [commonErrors_eq, List.map_map]
    exact map_commonResponses_nodup operations
  rw [Keyed.lookup_eq_some_iff_mem hkeys, commonErrors_eq]
  exact List.mem_map_of_mem h

/-- **What is written for a common error.** For a response that is left out of its operation, the
lines of the first error with its fingerprint are written. That one has the same status. If the
texts in both fingerprints can be told apart, it has as many payloads, of types and with properties
that are shown alike, and the lines are those of the response itself if the descriptions, content
types, examples, and the last two columns of the tables are the same. -/
theorem lines_of_hoisted (h : isHoisted g (commonErrors g ((groups s).flatMap (·.2))) r = true) :
    ∃ first,
      (errors g ((groups s).flatMap (·.2))).find? (·.1 == fingerprint g r) =
        some (fingerprint g r, first) ∧
      (commonErrors g ((groups s).flatMap (·.2))).lookup (fingerprint g r) =
        some (responseLines g first) ∧
      first.status = r.status ∧
      ((∀ o ∈ outlines g first, o.Legible) → (∀ o ∈ outlines g r, o.Legible) →
        outlines g first = outlines g r ∧
          (details g first = details g r → responseLines g first = responseLines g r)) := by
  obtain ⟨first, hfirst, hcommon⟩ := exists_mem_commonResponses h
  obtain ⟨_, _, _, _, hprint⟩ := of_mem_commonResponses hcommon
  obtain ⟨hstatus, _⟩ := fingerprint_inj hprint
  refine ⟨first, hfirst, lookup_commonErrors hcommon, hstatus, fun hlegible hlegible' => ?_⟩
  have houtlines := outlines_eq_of_fingerprint_eq hlegible hlegible' hprint
  exact ⟨houtlines, responseLines_congr hstatus houtlines⟩

/-- Two operations that fail in one way alike, in another with payloads that are only shown alike,
and in a third with payloads whose texts cannot be told apart. -/
def shelter : Document :=
  let conflict : Document.Response := ⟨.code 409, none, [⟨.ref "string", []⟩]⟩
  let animal : Document.Body :=
    ⟨.model [⟨"sought", .model [⟨"name", .ref "string", false, none⟩], false, none⟩],
      ["application/json"]⟩
  let owner : Document.Body :=
    ⟨.model [⟨"sought", .model [], true, some "What was asked for."⟩],
      ["application/problem+json"]⟩
  let one : Document.Body := ⟨.model [⟨"a:string,b", .ref "string", false, none⟩], []⟩
  let two : Document.Body :=
    ⟨.model [⟨"a", .ref "string", false, none⟩, ⟨"b", .ref "string", false, none⟩], []⟩
  { root :=
      { name := ""
        operations := [
          ⟨"animal", .get, "/animal", none, none, [], none,
            [⟨.code 404, none, [animal]⟩, conflict, ⟨.code 422, none, [one]⟩]⟩,
          ⟨"owner", .get, "/owner", none, none, [], none,
            [⟨.code 404, some "No such owner.", [owner]⟩, conflict, ⟨.code 422, none, [two]⟩]⟩] }
    diagnostics := [] }

theorem lines_of_hoisted_shelter : ∃ g, Graph.ofDocument shelter = .ok g ∧
    ∃ s ∈ documentedServices g, ∃ first later, s.operations = [first, later] ∧
      ∃ r ∈ later.responses, r.status = .code 409 ∧
        isHoisted g (commonErrors g ((groups s).flatMap (·.2))) r = true ∧
        (commonErrors g ((groups s).flatMap (·.2))).lookup (fingerprint g r) =
          some (responseLines g r) := by
  have hg : Graph.ofDocument shelter = .ok _ := rfl
  obtain ⟨g, hg, s, hs, first, later, hops, r, r', hr', hstatus, hhoisted, hfirst, hlegible,
      hlegible', hdetails⟩ : ∃ g, Graph.ofDocument shelter = .ok g ∧
      ∃ s ∈ documentedServices g, ∃ first later, s.operations = [first, later] ∧
      ∃ r, ∃ r' ∈ later.responses, r'.status = .code 409 ∧
        isHoisted g (commonErrors g ((groups s).flatMap (·.2))) r' = true ∧
        (errors g ((groups s).flatMap (·.2))).find? (·.1 == fingerprint g r') =
          some (fingerprint g r', r) ∧
        (∀ o ∈ outlines g r, o.Legible) ∧ (∀ o ∈ outlines g r', o.Legible) ∧
        details g r = details g r' := by
    refine ⟨_, hg, _, .head _, _, _, rfl, _, _, .tail _ (.head _), rfl, ?_, rfl, ?_, ?_, rfl⟩
    all_goals decide
  obtain ⟨found, hfound, hlines, _, hsame⟩ := lines_of_hoisted hhoisted
  rw [hfirst] at hfound
  obtain rfl := (Prod.mk.inj (Option.some.inj hfound)).2
  refine ⟨g, hg, s, hs, first, later, hops, r', hr', hstatus, hhoisted, ?_⟩
  rw [hlines, (hsame hlegible hlegible').2 hdetails]

/-- The lines that are written for an error can differ from those of the response in all that is
not in its fingerprint, and in the outlines where these cannot be told apart. -/
theorem lines_differ_shelter : ∃ g, Graph.ofDocument shelter = .ok g ∧ g.hasErrors = false ∧
    ∃ s ∈ documentedServices g, ∃ first later, s.operations = [first, later] ∧
      (∃ r ∈ first.responses, ∃ r' ∈ later.responses,
        isHoisted g (commonErrors g ((groups s).flatMap (·.2))) r' = true ∧
        (commonErrors g ((groups s).flatMap (·.2))).lookup (fingerprint g r') =
          some (responseLines g r) ∧
        responseLines g r ≠ responseLines g r' ∧
        (details g r).1 ≠ (details g r').1 ∧
        (details g r).2.map (·.contentTypes) ≠ (details g r').2.map (·.contentTypes) ∧
        (details g r).2.map (·.example?.map Json.Value.pretty) ≠
          (details g r').2.map (·.example?.map Json.Value.pretty) ∧
        (details g r).2.map (·.properties.map (·.1)) ≠
          (details g r').2.map (·.properties.map (·.1)) ∧
        (details g r).2.map (·.properties.map (·.2)) ≠
          (details g r').2.map (·.properties.map (·.2))) ∧
      ∃ r ∈ first.responses, ∃ r' ∈ later.responses,
        isHoisted g (commonErrors g ((groups s).flatMap (·.2))) r' = true ∧
        (commonErrors g ((groups s).flatMap (·.2))).lookup (fingerprint g r') =
          some (responseLines g r) ∧
        responseLines g r ≠ responseLines g r' ∧ outlines g r ≠ outlines g r' := by
  have hg : Graph.ofDocument shelter = .ok _ := rfl
  refine ⟨_, hg, rfl, _, .head _, _, _, rfl, ⟨_, .head _, _, .head _, ?_⟩,
    _, .tail _ (.tail _ (.head _)), _, .tail _ (.tail _ (.head _)), ?_⟩
  · refine ⟨by decide, rfl, ?_, by decide, by decide, ?_, by decide, by decide⟩
    all_goals decide +kernel
  · refine ⟨by decide, rfl, ?_, by decide⟩
    decide +kernel

end Reference

end ApiEmit
