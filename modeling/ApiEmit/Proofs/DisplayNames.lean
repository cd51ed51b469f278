/-
ApiEmit.Proofs.DisplayNames — which types are shown alike.

The text of a type has its alternatives with bars between them, and behind a list there are
brackets. Nothing sets off the alternatives of a list, so its brackets stand behind the last of them
and belong to that one alone (`displayed`). The text can be read back as far as this: two types have
one text just if they show the same alternatives. So they are the same type once nested choices are
flattened, as long as each list in them is one of a single alternative; but a list of a choice is
shown like a choice whose last alternative is a list.
-/
import ApiEmit.Proofs.Joined
import ApiEmit.Proofs.Parts
import ApiEmit.Proofs.ScalarNames
import ApiEmit.Reference.TypeName
import Mathlib.Data.List.ModifyLast

namespace ApiEmit

namespace TypeExpr

variable {ρ ι : Type}

/-! ## Flattening -/

/-- The choice between some alternatives; a single one is no choice. -/
def choice : List (TypeExpr ρ ι) → TypeExpr ρ ι
  | [e] => e
  | es => .union es

mutual

/-- The alternatives of an expression, those of a choice in place of the choice. The elements of
lists are flattened too. -/
def flatAlternatives : TypeExpr ρ ι → List (TypeExpr ρ ι)
  | .array element => [.array (choice element.flatAlternatives)]
  | .union variants => flatAlternativesAll variants
  | e => [e]

/-- The alternatives of some expressions. -/
def flatAlternativesAll : List (TypeExpr ρ ι) → List (TypeExpr ρ ι)
  | [] => []
  | e :: es => e.flatAlternatives ++ flatAlternativesAll es

end

/-- An expression without choices right within choices, and without choices of one alternative. -/
def flat (e : TypeExpr ρ ι) : TypeExpr ρ ι := choice e.flatAlternatives

theorem flatAlternativesAll_eq (es : List (TypeExpr ρ ι)) :
    flatAlternativesAll es = es.flatMap flatAlternatives := by
  induction es with
  | nil => rfl
  | cons e es ih => rw [flatAlternativesAll, List.flatMap_cons, ih]

end TypeExpr

namespace Reference

open TypeExpr (choice flatAlternatives flat)

variable {doc : Document} {g : Graph} {a b e t : Ty} {levels : Nat}

/-! ## Alternatives as they are shown -/

/-- Types made of built-in scalars, lists and choices, with no more than some number of lists and
choices within each other. -/
inductive Composed : Nat → Ty → Prop
  | builtIn {levels : Nat} {name : String} (h : name ∈ Library.names) :
      Composed levels (.ref (Library.scalarId name))
  | array {levels : Nat} {e : Ty} (h : Composed levels e) : Composed (levels + 1) (.array e)
  | union {levels : Nat} {variants : List Ty} (h : ∀ v ∈ variants, Composed levels v) :
      Composed (levels + 1) (.union variants)

@[simp] theorem composed_array : Composed (levels + 1) (.array e) ↔ Composed levels e :=
  ⟨fun | .array h => h, .array⟩

@[simp] theorem composed_union {variants : List Ty} :
    Composed (levels + 1) (.union variants) ↔ ∀ v ∈ variants, Composed levels v :=
  ⟨fun | .union h => h, .union⟩

mutual

/-- The alternatives that a type shows. The brackets of a list belong to the last alternative of its
elements, and a choice of nothing shows one alternative that is empty. -/
def displayed : Ty → List Ty
  | .array element => (displayed element).modifyLast .array
  | .union variants => if variants.isEmpty then [.union []] else displayedAll variants
  | t => [t]

/-- The alternatives that some types show. -/
def displayedAll : List Ty → List Ty
  | [] => []
  | t :: ts => displayed t ++ displayedAll ts

end

theorem displayedAll_eq (ts : List Ty) : displayedAll ts = ts.flatMap displayed := by
  induction ts with
  | nil => rfl
  | cons t ts ih => rw [displayedAll, List.flatMap_cons, ih]

theorem displayed_union (variants : List Ty) :
    displayed (.union variants) =
      if variants = [] then [.union []] else variants.flatMap displayed := by
  rw [displayed, displayedAll_eq]
  simp only [List.isEmpty_iff]

/-- A single alternative as it is shown: a built-in scalar or nothing, with brackets behind it. -/
inductive IsAlternative : Ty → Prop
  | builtIn {name : String} (h : name ∈ Library.names) :
      IsAlternative (.ref (Library.scalarId name))
  | nothing : IsAlternative (.union [])
  | list {e : Ty} (h : IsAlternative e) : IsAlternative (.array e)

/-- Every type shows something. -/
theorem displayed_ne_nil (t : Ty) : displayed t ≠ [] := by
  induction t using TypeExpr.induction_parts with
  | step t ih =>
    cases t with
    | array e =>
      obtain ⟨front, last, hdisplayed⟩ :=
        (List.eq_nil_or_concat' (displayed e)).resolve_left (ih e List.mem_cons_self)
      rw [displayed, hdisplayed, List.modifyLast_concat]
      exact List.append_ne_nil_of_right_ne_nil _ (List.cons_ne_nil _ _)
    | union variants =>
      rw [displayed_union]
      split_ifs with hempty
      · exact List.cons_ne_nil _ _
      · obtain ⟨v, rest, rfl⟩ := List.exists_cons_of_ne_nil hempty
        exact List.append_ne_nil_of_left_ne_nil (ih v List.mem_cons_self) _
    | _ => exact List.cons_ne_nil _ _

/-- Of a list, the last alternative of the elements has brackets. -/
theorem exists_displayed_array (e : Ty) : ∃ front last, displayed e = front ++ [last] ∧
    displayed (.array e) = front ++ [.array last] := by
  obtain ⟨front, last, hdisplayed⟩ :=
    (List.eq_nil_or_concat' (displayed e)).resolve_left (displayed_ne_nil e)
  exact ⟨front, last, hdisplayed, by rw [displayed, hdisplayed, List.modifyLast_concat]⟩

/-- What is shown are single alternatives. -/
theorem Composed.isAlternative_of_mem (h : Composed levels t) (ha : a ∈ displayed t) :
    IsAlternative a := by
  induction h generalizing a with
  | builtIn h =>
    rw [List.mem_singleton.mp ha]
    exact .builtIn h
  | @array _ e _ ih =>
    obtain ⟨front, last, hdisplayed, harray⟩ := exists_displayed_array e
    rw [harray] at ha
    rcases List.mem_append.mp ha with ha | ha
    · exact ih (hdisplayed ▸ List.mem_append_left _ ha)
    · rw [List.mem_singleton.mp ha]
      exact .list (ih (hdisplayed ▸ List.mem_append_right _ List.mem_cons_self))
  | union _ ih =>
    rw [displayed_union] at ha
    split_ifs at ha
    · rw [List.mem_singleton.mp ha]
      exact .nothing
    · obtain ⟨v, hv, ha⟩ := List.mem_flatMap.mp ha
      exact ih v hv ha

/-! ## Texts with bars between them -/

theorem alternatives_cons (first : String) {rest : List String} (h : rest ≠ []) :
    alternatives (first :: rest) = first ++ " | " ++ alternatives rest := by
  obtain ⟨second, others, rfl⟩ := List.exists_cons_of_ne_nil h
  exact String.intercalate_cons_cons

theorem alternatives_append {front back : List String} (hfront : front ≠ []) (hback : back ≠ []) :
    alternatives (front ++ back) = alternatives front ++ " | " ++ alternatives back := by
  induction front with
  | nil => exact absurd rfl hfront
  | cons first rest ih =>
    rw [List.cons_append, alternatives_cons first (List.append_ne_nil_of_right_ne_nil _ hback)]
    by_cases hrest : rest = []
    · subst hrest
      rfl
    · rw [ih hrest, alternatives_cons first hrest]
      simp only [String.append_assoc]

theorem alternatives_singleton (text : String) : alternatives [text] = text :=
  String.intercalate_singleton

/-- Alternatives of alternatives are not set off. -/
theorem alternatives_flatMap {texts : Ty → List String} (htexts : ∀ t, texts t ≠ [])
    {ts : List Ty} (h : ts ≠ []) :
    alternatives (ts.map fun t => alternatives (texts t)) = alternatives (ts.flatMap texts) := by
  induction ts with
  | nil => exact absurd rfl h
  | cons first rest ih =>
    rw [List.map_cons, List.flatMap_cons]
    by_cases hrest : rest = []
    · subst hrest
      rw [List.map_nil, alternatives_singleton, List.flatMap_nil, List.append_nil]
    · have hback : rest.flatMap texts ≠ [] := by
        obtain ⟨second, others, rfl⟩ := List.exists_cons_of_ne_nil hrest
        exact List.append_ne_nil_of_left_ne_nil (htexts second) _
      rw [alternatives_cons _ (by simpa using hrest), ih hrest,
        alternatives_append (htexts first) hback]

/-- What is put behind alternatives stands behind the last one. -/
theorem alternatives_concat_append (front : List String) (last text : String) :
    alternatives (front ++ [last]) ++ text = alternatives (front ++ [last ++ text]) := by
  by_cases hfront : front = []
  · subst hfront
    rw [List.nil_append, List.nil_append, alternatives_singleton, alternatives_singleton]
  · rw [alternatives_append hfront (List.cons_ne_nil _ _),
      alternatives_append hfront (List.cons_ne_nil _ _), alternatives_singleton,
      alternatives_singleton, String.append_assoc]

/-- Alternatives without bars can be read back. -/
theorem alternatives_inj {texts texts' : List String} (hne : texts ≠ []) (hne' : texts' ≠ [])
    (h : ∀ text ∈ texts, '|' ∉ text.toList) (h' : ∀ text ∈ texts', '|' ∉ text.toList)
    (heq : alternatives texts = alternatives texts') : texts = texts' := by
  have hbar : ∀ first rest : String,
      '|' ∈ (first ++ " | " ++ rest).toList := by
    intro first rest
    simp [String.toList_append]
  induction texts generalizing texts' with
  | nil => exact absurd rfl hne
  | cons first rest ih =>
    obtain ⟨first', rest', rfl⟩ := List.exists_cons_of_ne_nil hne'
    rw [List.forall_mem_cons] at h h'
    -- the first bar ends the first alternative; without one there is no second alternative
    by_cases hrest : rest = [] <;> by_cases hrest' : rest' = []
    · subst hrest hrest'
      rw [alternatives_singleton, alternatives_singleton] at heq
      rw [heq]
    · subst hrest
      rw [alternatives_singleton, alternatives_cons first' hrest'] at heq
      exact absurd (heq ▸ hbar _ _) h.1
    · subst hrest'
      rw [alternatives_singleton, alternatives_cons first hrest] at heq
      exact absurd (heq ▸ hbar _ _) h'.1
    · rw [alternatives_cons first hrest, alternatives_cons first' hrest'] at heq
      have hsplit : first ++ " " ++ String.singleton '|' ++ (" " ++ alternatives rest) =
          first' ++ " " ++ String.singleton '|' ++ (" " ++ alternatives rest') := by
        have hbars : " | " = " " ++ String.singleton '|' ++ " " := rfl
        simpa only [hbars, String.append_assoc] using heq
      obtain ⟨hfirst, hothers⟩ := Text.append_separator_inj (by simp [String.toList_append, h.1])
        (by simp [String.toList_append, h'.1]) hsplit
      rw [(String.append_left_inj " ").mp hfirst,
        ih hrest hrest' h.2 h'.2 ((String.append_right_inj " ").mp hothers)]

/-! ## The text of a type -/

/-- A single alternative as a text. -/
def alternativeText : Ty → String
  | .array e => alternativeText e ++ "[]"
  | .ref id => id.name
  | _ => ""

/-- The name of a built-in scalar has neither a bar nor a bracket in it. -/
theorem builtIn_chars : ∀ name ∈ Library.names,
    name ≠ "" ∧ '|' ∉ name.toList ∧ ']' ∉ name.toList := by
  decide

theorem typeNameTo_builtIn (hg : Graph.ofDocument doc = .ok g) {name : String}
    (h : name ∈ Library.names) (levels : Nat) :
    typeNameTo g levels (.ref (Library.scalarId name)) = name := by
  cases levels with
  | zero =>
    -- below the last level a type has its own name, and that is the same one
    obtain ⟨hne, _, _⟩ := builtIn_chars name h
    simp [typeNameTo, ownName?, Library.scalarId, hne]
  | succ levels =>
    obtain ⟨scalar, hscalar⟩ :=
      Option.isSome_iff_exists.mp (Graph.isSome_scalar?_builtIn hg h)
    simp only [typeNameTo, Graph.scalar?_eq_some_iff.mp hscalar]
    rfl

/-- The text of a type has the alternatives that it shows. -/
theorem typeNameTo_eq_alternatives (hg : Graph.ofDocument doc = .ok g) (h : Composed levels t) :
    typeNameTo g levels t = alternatives ((displayed t).map alternativeText) := by
  induction h with
  | @builtIn levels name h =>
    rw [typeNameTo_builtIn hg h]
    exact (alternatives_singleton name).symm
  | @array _ e _ ih =>
    obtain ⟨front, last, hdisplayed, harray⟩ := exists_displayed_array e
    rw [typeNameTo, ih, hdisplayed, harray, List.map_append, List.map_append]
    exact alternatives_concat_append _ _ _
  | @union levels variants _ ih =>
    rw [typeNameTo, displayed_union]
    split_ifs with hempty
    · subst hempty
      rfl
    · rw [List.map_congr_left ih, alternatives_flatMap _ hempty, List.map_flatMap]
      exact fun t => by simpa using displayed_ne_nil t

theorem IsAlternative.bar_not_mem (h : IsAlternative a) : '|' ∉ (alternativeText a).toList := by
  induction h with
  | builtIn h => exact (builtIn_chars _ h).2.1
  | nothing => simp [alternativeText]
  | list _ ih => simp [alternativeText, String.toList_append, ih]

/-- A single alternative can be read back from its text. -/
theorem IsAlternative.text_inj (ha : IsAlternative a) (hb : IsAlternative b)
    (h : alternativeText a = alternativeText b) : a = b := by
  have hbrackets : ∀ e : Ty, ']' ∈ (alternativeText (.array e)).toList := by
    intro e
    simp [alternativeText, String.toList_append]
  induction ha generalizing b with
  | @builtIn name hname =>
    obtain ⟨hne, _, hbracket⟩ := builtIn_chars _ hname
    cases hb with
    | builtIn => exact congrArg (fun name => TypeExpr.ref (Library.scalarId name)) h
    | nothing => exact absurd h hne
    | @list e =>
      have hmem := hbrackets e
      rw [← h] at hmem
      exact absurd hmem hbracket
  | nothing =>
    cases hb with
    | builtIn hname => exact absurd h.symm (builtIn_chars _ hname).1
    | nothing => rfl
    | @list e =>
      have hmem := hbrackets e
      rw [← h] at hmem
      cases hmem
  | @list e _ ih =>
    cases hb with
    | builtIn hname =>
      have hmem := hbrackets e
      rw [h] at hmem
      exact absurd hmem (builtIn_chars _ hname).2.2
    | nothing =>
      have hmem := hbrackets e
      rw [h] at hmem
      cases hmem
    | list hb => rw [ih hb ((String.append_left_inj "[]").mp h)]

/-- So can several ones, from their texts. -/
theorem map_alternativeText_inj {as bs : List Ty} (has : ∀ a ∈ as, IsAlternative a)
    (hbs : ∀ b ∈ bs, IsAlternative b) (h : as.map alternativeText = bs.map alternativeText) :
    as = bs := by
  induction as generalizing bs with
  | nil => exact (List.map_eq_nil_iff.mp h.symm).symm
  | cons a as ih =>
    cases bs with
    | nil => cases h
    | cons b bs =>
      rw [List.map_cons, List.map_cons, List.cons.injEq] at h
      rw [List.forall_mem_cons] at has hbs
      rw [has.1.text_inj hbs.1 h.1, ih has.2 hbs.2 h.2]

theorem typeNameTo_eq_iff (hg : Graph.ofDocument doc = .ok g) (ha : Composed levels a)
    (hb : Composed levels b) :
    typeNameTo g levels a = typeNameTo g levels b ↔ displayed a = displayed b := by
  have hbar : ∀ {t : Ty}, Composed levels t →
      ∀ text ∈ (displayed t).map alternativeText, '|' ∉ text.toList := by
    intro t ht text htext
    obtain ⟨x, hx, rfl⟩ := List.mem_map.mp htext
    exact (ht.isAlternative_of_mem hx).bar_not_mem
  rw [typeNameTo_eq_alternatives hg ha, typeNameTo_eq_alternatives hg hb]
  constructor
  · intro heq
    have htexts : (displayed a).map alternativeText = (displayed b).map alternativeText :=
      alternatives_inj (by simpa using displayed_ne_nil a) (by simpa using displayed_ne_nil b)
        (hbar ha) (hbar hb) heq
    exact map_alternativeText_inj (fun _ => ha.isAlternative_of_mem)
      (fun _ => hb.isAlternative_of_mem) htexts
  · intro heq
    rw [heq]

/-! ## Types that are shown alike -/

/-- Each list in a type, at any depth, is one of elements that show a single alternative. -/
def ListsSingles (t : Ty) : Prop :=
  ∀ e, t.Contains (.array e) → (displayed e).length = 1

theorem ListsSingles.of_mem_parts (h : ListsSingles t) {part : Ty} (hpart : part ∈ t.parts) :
    ListsSingles part :=
  fun e he => h e (he.head hpart)

@[simp] theorem listsSingles_ref (id : DeclId) : ListsSingles (.ref id) :=
  fun _ he => nomatch TypeExpr.ref_contains_iff.mp he

@[simp] theorem listsSingles_array :
    ListsSingles (.array e) ↔ (displayed e).length = 1 ∧ ListsSingles e := by
  constructor
  · exact fun h => ⟨h e (TypeExpr.Contains.refl _), h.of_mem_parts List.mem_cons_self⟩
  · rintro ⟨hone, h⟩ inner hinner
    rcases TypeExpr.contains_iff.mp hinner with heq | ⟨part, hpart, hrest⟩
    · rwa [TypeExpr.array.inj heq]
    · rw [List.mem_singleton.mp hpart] at hrest
      exact h inner hrest

@[simp] theorem listsSingles_union {variants : List Ty} :
    ListsSingles (.union variants) ↔ ∀ v ∈ variants, ListsSingles v := by
  constructor
  · exact fun h v hv => h.of_mem_parts hv
  · intro h inner hinner
    rcases TypeExpr.contains_iff.mp hinner with heq | ⟨v, hv, hrest⟩
    · cases heq
    · exact h v hv inner hrest

/-- Without lists of choices, a type is flattened like the alternatives that it shows. -/
theorem ListsSingles.flatAlternatives_eq (h : ListsSingles t) :
    t.flatAlternatives = (displayed t).flatMap flatAlternatives := by
  induction t using TypeExpr.induction_parts with
  | step t ih =>
    cases t with
    | array e =>
      obtain ⟨hone, he⟩ := listsSingles_array.mp h
      obtain ⟨x, hx⟩ := List.length_eq_one_iff.mp hone
      have helement := ih e List.mem_cons_self he
      rw [hx, List.flatMap_singleton] at helement
      have harray : displayed (.array e) = [.array x] := by rw [displayed, hx]; rfl
      rw [harray, List.flatMap_singleton, flatAlternatives, flatAlternatives, helement]
    | union variants =>
      have hvariants : variants.flatMap flatAlternatives =
          variants.flatMap fun v => (displayed v).flatMap flatAlternatives :=
        List.flatMap_congr fun v hv => ih v hv (listsSingles_union.mp h v hv)
      rw [flatAlternatives, TypeExpr.flatAlternativesAll_eq, displayed_union]
      split_ifs with hempty
      · subst hempty
        rfl
      · rw [hvariants, List.flatMap_assoc]
    | _ => exact (List.append_nil _).symm

/-- A list of a choice shows what a choice shows that ends in a list. -/
theorem displayed_array_union (front : List Ty) (last : Ty) :
    displayed (.array (.union (front ++ [last]))) =
      displayed (.union (front ++ [.array last])) := by
  obtain ⟨before, x, hlast, harray⟩ := exists_displayed_array last
  have hne : ∀ v : Ty, front ++ [v] ≠ [] := fun _ =>
    List.append_ne_nil_of_right_ne_nil _ (List.cons_ne_nil _ _)
  rw [displayed, displayed_union, displayed_union, if_neg (hne _), if_neg (hne _),
    List.flatMap_append, List.flatMap_append, List.flatMap_singleton, List.flatMap_singleton,
    hlast, harray, ← List.append_assoc, List.modifyLast_concat, List.append_assoc]

theorem Composed.succ (h : Composed levels t) : Composed (levels + 1) t := by
  induction h with
  | builtIn h => exact .builtIn h
  | array _ ih => exact .array ih
  | union _ ih => exact .union ih

/-- A list of a choice has the text of a choice that ends in a list. -/
theorem typeNameTo_array_union (hg : Graph.ofDocument doc = .ok g) {front : List Ty} {last : Ty}
    (hfront : ∀ v ∈ front, Composed levels v) (hlast : Composed levels last) :
    typeNameTo g (levels + 2) (.array (.union (front ++ [last]))) =
      typeNameTo g (levels + 2) (.union (front ++ [.array last])) := by
  have harray : Composed (levels + 2) (.array (.union (front ++ [last]))) := by
    refine .array (.union fun v hv => ?_)
    rcases List.mem_append.mp hv with hv | hv
    · exact hfront v hv
    · rw [List.mem_singleton.mp hv]
      exact hlast
  have hunion : Composed (levels + 2) (.union (front ++ [.array last])) := by
    refine .union fun v hv => ?_
    rcases List.mem_append.mp hv with hv | hv
    · exact (hfront v hv).succ
    · rw [List.mem_singleton.mp hv]
      exact .array hlast
  exact (typeNameTo_eq_iff hg harray hunion).mpr (displayed_array_union front last)

/-- **How far the text of a type tells it apart.** Two types of built-in scalars, lists and choices
have one text just if they show the same alternatives. If none of the lists in them is one of
several alternatives, they are then the same type once choices are flattened. -/
theorem typeName_tells_apart (hg : Graph.ofDocument doc = .ok g) (ha : Composed maxNameDepth a)
    (hb : Composed maxNameDepth b) :
    (typeName g a = typeName g b ↔ displayed a = displayed b) ∧
    (ListsSingles a → ListsSingles b → typeName g a = typeName g b → a.flat = b.flat) := by
  have hiff : typeName g a = typeName g b ↔ displayed a = displayed b := typeNameTo_eq_iff hg ha hb
  refine ⟨hiff, fun hla hlb heq => ?_⟩
  rw [flat, flat, hla.flatAlternatives_eq, hlb.flatAlternatives_eq, hiff.mp heq]

/-- Readings that are mixed, texts and numbers in one list, and readings that are either a text or a
list of numbers. -/
def readings : Document :=
  { root :=
      { name := ""
        models := [
          ⟨"Readings", none, none, none,
            [⟨"mixed", .array (.union [.ref "string", .ref "int32"]), false, none, none, {}⟩,
              ⟨"either", .union [.ref "string", .array (.ref "int32")], false, none, none, {}⟩],
            {}⟩] }
    diagnostics := [] }

/-- A built-in scalar as a type. -/
def builtIn (name : String) : Ty := .ref (Library.scalarId name)

theorem composed_builtIn {name : String} (h : name ∈ ["string", "int32"]) :
    Composed levels (builtIn name) :=
  .builtIn (by revert name; decide)

theorem typeName_tells_apart_nested : ∃ g a b,
    Graph.ofDocument readings = .ok g ∧
    a = .union [builtIn "string", .union [builtIn "int32", .array (builtIn "string")]] ∧
    b = .union [.union [builtIn "string", builtIn "int32"], .array (builtIn "string")] ∧
    Composed maxNameDepth a ∧ Composed maxNameDepth b ∧ ListsSingles a ∧ ListsSingles b ∧
    typeName g a = typeName g b ∧ a.flat = b.flat := by
  obtain ⟨g, hg⟩ : ∃ g, Graph.ofDocument readings = .ok g := ⟨_, rfl⟩
  have ha : Composed maxNameDepth
      (.union [builtIn "string", .union [builtIn "int32", .array (builtIn "string")]]) := by
    simp [maxNameDepth, composed_builtIn]
  have hb : Composed maxNameDepth
      (.union [.union [builtIn "string", builtIn "int32"], .array (builtIn "string")]) := by
    simp [maxNameDepth, composed_builtIn]
  have hla : ListsSingles
      (.union [builtIn "string", .union [builtIn "int32", .array (builtIn "string")]]) := by
    simp [builtIn, displayed]
  have hlb : ListsSingles
      (.union [.union [builtIn "string", builtIn "int32"], .array (builtIn "string")]) := by
    simp [builtIn, displayed]
  obtain ⟨hiff, hflat⟩ := typeName_tells_apart hg ha hb
  have hname := hiff.mpr rfl
  exact ⟨g, _, _, hg, rfl, rfl, ha, hb, hla, hlb, hname, hflat hla hlb hname⟩

/-- Mixed readings are shown like those that are either one: the brackets of the list do not reach
around the choice in it. -/
theorem shows_readings_alike : ∃ g properties mixed either,
    Graph.ofDocument readings = .ok g ∧
    g.properties? (atRoot "Readings") = some properties ∧
    properties.map (·.type) = [mixed, either] ∧
    mixed = .array (.union [builtIn "string", builtIn "int32"]) ∧
    either = .union [builtIn "string", .array (builtIn "int32")] ∧
    Composed maxNameDepth mixed ∧ Composed maxNameDepth either ∧
    typeName g mixed = "string | int32[]" ∧ typeName g either = "string | int32[]" ∧
    mixed.flat ≠ either.flat := by
  obtain ⟨g, properties, hg, hproperties, htypes⟩ : ∃ g properties,
      Graph.ofDocument readings = .ok g ∧
      g.properties? (atRoot "Readings") = some properties ∧
      properties.map (·.type) = [.array (.union [builtIn "string", builtIn "int32"]),
        .union [builtIn "string", .array (builtIn "int32")]] :=
    ⟨_, _, rfl, rfl, rfl⟩
  have hmixed : Composed maxNameDepth (.array (.union [builtIn "string", builtIn "int32"])) := by
    simp [maxNameDepth, composed_builtIn]
  have heither : Composed maxNameDepth
      (.union [builtIn "string", .array (builtIn "int32")]) := by
    simp [maxNameDepth, composed_builtIn]
  refine ⟨g, properties, _, _, hg, hproperties, htypes, rfl, rfl, hmixed, heither, ?_, ?_, ?_⟩
  · exact typeNameTo_eq_alternatives hg hmixed
  · exact typeNameTo_eq_alternatives hg heither
  · exact fun hflat => nomatch hflat

end Reference

end ApiEmit
