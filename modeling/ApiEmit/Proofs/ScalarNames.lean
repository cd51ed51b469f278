/-
ApiEmit.Proofs.ScalarNames — a scalar is represented as the one that it restricts.

Two tables say how scalars are represented, one for type hints and one for examples. Each is asked
for the name of the scalar itself, then for that of the scalar it restricts, and so on, and the
first answer counts (`findSome?_scalarChain`). Both have a row for every built-in scalar, and all
but one of their rows are for those. So a scalar is represented as the one that it restricts,
however long its chain is, and even where the chain comes back to it; only a scalar that is called
like a built-in one is taken for that one, whatever it restricts.
-/
import ApiEmit.Proofs.ScalarChains
import ApiEmit.Proofs.Synthesis
import ApiEmit.Proofs.WellFormed
import ApiEmit.Pydantic.TypeHint

namespace ApiEmit

/-- The names of the built-in scalars. -/
def Library.names : List String := Library.scalars.map (·.1)

variable {g : Graph} {s b : DeclId} {scalar : Scalar} {name : String}

/-! ## Asking along a chain -/

theorem findSome?_filter_ne {α β : Type} [DecidableEq α] {f : α → Option β} {a : α}
    (hf : f a = none) (l : List α) : (l.filter (· ≠ a)).findSome? f = l.findSome? f := by
  induction l with
  | nil => rfl
  | cons first rest ih =>
    rw [List.findSome?_cons]
    by_cases hne : first = a
    · rw [List.filter_cons_of_neg (by simpa using hne), ih, hne, hf]
    · rw [List.filter_cons_of_pos (by simpa using hne), List.findSome?_cons, ih]

namespace Graph

/-- What is found along the chain of a scalar is what is found for the scalar itself, or else along
the chain of what it restricts. -/
theorem findSome?_scalarChain {β : Type} (hs : g.scalar? s = some scalar)
    (hbase : scalar.base = some b) (f : DeclId → Option β) :
    (g.scalarChain s).findSome? f = (f s).or ((g.scalarChain b).findSome? f) := by
  rw [scalarChain_of_base hs hbase, List.findSome?_cons]
  cases hf : f s with
  | some _ => rfl
  | none => exact findSome?_filter_ne hf _

/-- What is known of a scalar itself is found first. -/
theorem findSome?_scalarChain_of_some {β : Type} {f : DeclId → Option β} {v : β}
    (hs : (g.scalar? s).isSome = true) (hf : f s = some v) :
    (g.scalarChain s).findSome? f = some v := by
  have hhead := (isScalarChain_scalarChain g s).head
  rw [if_pos hs, List.head?_eq_some_iff] at hhead
  obtain ⟨rest, hchain⟩ := hhead
  rw [hchain, List.findSome?_cons, hf]

/-- Every program has the built-in scalars. -/
theorem isSome_scalar?_builtIn {doc : Document} (h : Graph.ofDocument doc = .ok g)
    (hname : name ∈ Library.names) : (g.scalar? (Library.scalarId name)).isSome = true := by
  obtain ⟨⟨_, base⟩, hentry, rfl⟩ := List.mem_map.mp hname
  have hdeclared := (declaration?_eq_some_iff h).mpr
    (Load.Declares.builtIn (List.mem_map_of_mem hentry))
  rw [scalar?_eq_some_iff.mpr hdeclared, Option.isSome_some]

end Graph

/-! ## Type hints -/

namespace Pydantic

/-- The table for type hints has a row for each built-in scalar, and no other rows. -/
theorem isSome_scalarPrimitive?_iff :
    (scalarPrimitive? name).isSome = true ↔ name ∈ Library.names := by
  constructor
  · contrapose
    intro hname
    simp only [Library.names, Library.scalars, List.map_cons, List.map_nil, List.mem_cons,
      List.not_mem_nil, or_false, not_or] at hname
    simp [scalarPrimitive?, hname]
  · revert name
    decide

theorem annotate_scalar (hs : (g.scalar? s).isSome = true) (names : NameTable)
    (refs : References) : annotate g names (.ref s) refs = (scalarHint g s, refs) := by
  obtain ⟨scalar, hs⟩ := Option.isSome_iff_exists.mp hs
  simp only [annotate, annotate?, Graph.scalar?_eq_some_iff.mp hs, Option.getD_some]

/-- A scalar has the type hint that its name has in the table, or else that of what it restricts. -/
theorem scalarHint_of_base (hs : g.scalar? s = some scalar) (hbase : scalar.base = some b) :
    scalarHint g s = ((scalarPrimitive? s.name).map .primitive).getD (scalarHint g b) := by
  rw [scalarHint, Graph.findSome?_scalarChain hs hbase, scalarHint]
  cases scalarPrimitive? s.name <;> rfl

/-- Scalars with one name have one type hint if the table has the name. -/
theorem scalarHint_of_some {p : Python.Primitive} (hs : (g.scalar? s).isSome = true)
    (hp : scalarPrimitive? s.name = some p) : scalarHint g s = .primitive p := by
  rw [scalarHint, Graph.findSome?_scalarChain_of_some hs hp]
  rfl

end Pydantic

/-! ## Examples -/

namespace Reference

/-- The name in the table for examples that no built-in scalar has. -/
def spareName : String := "float16"

/-- The table for examples has a row for each built-in scalar, and one more. -/
theorem isSome_scalarValue?_iff :
    (scalarValue? name).isSome = true ↔ name ∈ spareName :: Library.names := by
  constructor
  · contrapose
    intro hname
    simp only [spareName, Library.names, Library.scalars, List.map_cons, List.map_nil,
      List.mem_cons, List.not_mem_nil, or_false, not_or] at hname
    simp [scalarValue?, hname]
  · revert name
    decide

theorem example?_scalar (hs : (g.scalar? s).isSome = true) (depth : Nat) :
    example? g (.ref s) depth =
      some (if depth < maxExampleDepth then scalarExample g s else emptyObject) := by
  obtain ⟨scalar, hs⟩ := Option.isSome_iff_exists.mp hs
  have hd := Graph.scalar?_eq_some_iff.mp hs
  split_ifs with hdepth
  · have hplain : g.alternatives? (.ref s) = none := by
      simp [Graph.alternatives?, Graph.union?, hd]
    rw [example?_of_lt hdepth, Graph.settle?_of_alternatives?_eq_none hplain]
    simp [build, Graph.element?, Graph.members?, Graph.model?, plainExample?, hd]
  · exact example?_of_le (Nat.le_of_not_lt hdepth)

/-- A scalar has the example that its name has in the table, or else that of what it restricts. -/
theorem scalarExample_of_base (hs : g.scalar? s = some scalar) (hbase : scalar.base = some b) :
    scalarExample g s = (scalarValue? s.name).getD (scalarExample g b) := by
  rw [scalarExample, Graph.findSome?_scalarChain hs hbase, scalarExample]
  cases scalarValue? s.name <;> rfl

/-- Scalars with one name have one example if the table has the name. -/
theorem scalarExample_of_some {v : Json.Value} (hs : (g.scalar? s).isSome = true)
    (hv : scalarValue? s.name = some v) : scalarExample g s = v := by
  rw [scalarExample, Graph.findSome?_scalarChain_of_some hs hv]
  rfl

end Reference

/-! ## How a scalar is represented -/

open Pydantic (NameTable References annotate)
open Reference (example?)

/-- Two types have one type hint, whatever has been referred to before. -/
def HintedAlike (g : Graph) (t t' : Ty) : Prop :=
  ∀ (names : NameTable) (refs : References), annotate g names t refs = annotate g names t' refs

/-- Two types have one example, wherever it stands. -/
def ExemplifiedAlike (g : Graph) (t t' : Ty) : Prop :=
  ∀ depth, example? g t depth = example? g t' depth

/-- A scalar is represented as the one that it restricts, unless it has a name of the tables; and
then it is represented as the built-in scalar of that name. -/
structure RepresentedAs (g : Graph) (s b : DeclId) : Prop where
  hint_base : s.name ∉ Library.names → HintedAlike g (.ref s) (.ref b)
  example_base : s.name ∉ Reference.spareName :: Library.names →
    ExemplifiedAlike g (.ref s) (.ref b)
  hint_builtIn : s.name ∈ Library.names →
    HintedAlike g (.ref s) (.ref (Library.scalarId s.name))
  example_builtIn : s.name ∈ Library.names →
    ExemplifiedAlike g (.ref s) (.ref (Library.scalarId s.name))
  example_spare : s.name = Reference.spareName → ∀ depth < Reference.maxExampleDepth,
    example? g (.ref s) depth = some (.number (.binary false .zero))

variable {t t' : DeclId}

theorem hintedAlike_of_eq (ht : (g.scalar? t).isSome = true) (ht' : (g.scalar? t').isSome = true)
    (h : Pydantic.scalarHint g t = Pydantic.scalarHint g t') :
    HintedAlike g (.ref t) (.ref t') := by
  intro names refs
  rw [Pydantic.annotate_scalar ht, Pydantic.annotate_scalar ht', h]

theorem exemplifiedAlike_of_eq (ht : (g.scalar? t).isSome = true)
    (ht' : (g.scalar? t').isSome = true)
    (h : Reference.scalarExample g t = Reference.scalarExample g t') :
    ExemplifiedAlike g (.ref t) (.ref t') := by
  intro depth
  rw [Reference.example?_scalar ht, Reference.example?_scalar ht', h]

/-- **A scalar that is not called like a built-in one is represented as what it restricts**, in type
hints and in examples. One that is called like a built-in scalar is taken for that one. -/
theorem represented_as_base {doc : Document} (h : Graph.ofDocument doc = .ok g)
    (hs : g.scalar? s = some scalar) (hbase : scalar.base = some b) : RepresentedAs g s b := by
  have hsome : (g.scalar? s).isSome = true := by rw [hs, Option.isSome_some]
  have hsomeBase : (g.scalar? b).isSome = true :=
    Option.isSome_iff_exists.mpr (Graph.exists_scalar_of_base h hs hbase)
  constructor
  case hint_base =>
    intro hname
    apply hintedAlike_of_eq hsome hsomeBase
    have hnone : Pydantic.scalarPrimitive? s.name = none := by
      simpa using mt Pydantic.isSome_scalarPrimitive?_iff.mp hname
    rw [Pydantic.scalarHint_of_base hs hbase, hnone]
    rfl
  case example_base =>
    intro hname
    apply exemplifiedAlike_of_eq hsome hsomeBase
    have hnone : Reference.scalarValue? s.name = none := by
      simpa using mt Reference.isSome_scalarValue?_iff.mp hname
    rw [Reference.scalarExample_of_base hs hbase, hnone]
    rfl
  case hint_builtIn =>
    intro hname
    have hbuiltIn := Graph.isSome_scalar?_builtIn h hname
    apply hintedAlike_of_eq hsome hbuiltIn
    obtain ⟨p, hp⟩ := Option.isSome_iff_exists.mp (Pydantic.isSome_scalarPrimitive?_iff.mpr hname)
    rw [Pydantic.scalarHint_of_some hsome hp, Pydantic.scalarHint_of_some hbuiltIn hp]
  case example_builtIn =>
    intro hname
    have hbuiltIn := Graph.isSome_scalar?_builtIn h hname
    apply exemplifiedAlike_of_eq hsome hbuiltIn
    obtain ⟨v, hv⟩ := Option.isSome_iff_exists.mp
      (Reference.isSome_scalarValue?_iff.mpr (List.mem_cons_of_mem _ hname))
    rw [Reference.scalarExample_of_some hsome hv, Reference.scalarExample_of_some hbuiltIn hv]
  case example_spare =>
    intro hname depth hdepth
    have hv : Reference.scalarValue? s.name = some (.number (.binary false .zero)) := by
      rw [hname]
      rfl
    rw [Reference.example?_scalar hsome, if_pos hdepth, Reference.scalarExample_of_some hsome hv]

/-- Mails whose addresses restrict a text of the program, which restricts a built-in scalar. -/
def mails : Document :=
  { root :=
      { name := ""
        scalars := [⟨"Text", none, some "string", {}⟩]
        namespaces := [{ name := "Mail", scalars := [⟨"Address", none, some "Text", {}⟩] }] }
    diagnostics := [] }

theorem represented_as_base_mails : ∃ g, Graph.ofDocument mails = .ok g ∧
    ∃ s b scalar, g.scalar? s = some scalar ∧ scalar.base = some b ∧ s.name ∉ Library.names ∧
      RepresentedAs g s b ∧ g.scalarChain s = [s, b, Library.scalarId "string"] ∧
      ∀ names refs, annotate g names (.ref s) refs = (.primitive .str, refs) := by
  have hg : Graph.ofDocument mails = .ok _ := rfl
  refine ⟨_, hg, ⟨⟨[⟨1, "Mail"⟩]⟩, "Address"⟩, ⟨.root, "Text"⟩, _, rfl, rfl, by decide,
    represented_as_base hg rfl rfl, by decide, fun _ _ => rfl⟩

/-- Clips whose duration is a number of seconds. -/
def clips : Document :=
  { root := { name := "", scalars := [⟨"duration", none, some "int32", {}⟩] }
    diagnostics := [] }

/-- A scalar that has the name of a built-in one is not represented as what it restricts: a duration
that is a whole number is taken for a period of time. -/
theorem mistaken_for_builtIn_clips : ∃ g, Graph.ofDocument clips = .ok g ∧
    ∃ s b scalar, g.scalar? s = some scalar ∧ scalar.base = some b ∧
      s.home ≠ NamespaceId.library ∧
      g.scalarChain s = s :: b :: ["int64", "integer", "numeric"].map Library.scalarId ∧
      annotate g ⟨[]⟩ (.ref s) [] = (.primitive .timedelta, []) ∧
      annotate g ⟨[]⟩ (.ref b) [] = (.primitive .int, []) ∧
      example? g (.ref s) 0 = some (.string "PT1H") ∧
      example? g (.ref b) 0 = some (.number (.integer 0)) := by
  have hg : Graph.ofDocument clips = .ok _ := rfl
  exact ⟨_, hg, ⟨.root, "duration"⟩, Library.scalarId "int32", _, rfl, rfl, by decide, by decide,
    rfl, rfl, rfl, rfl⟩

end ApiEmit
