/-
ApiEmit.Proofs.SameDeclarations — programs in which the same is declared.

All that is asked about a declaration looks declarations up by identity, so programs in which the
same is declared answer alike, and marking goes the same way in both.
-/
import ApiEmit.Proofs.Usage

namespace ApiEmit.Graph

/-- Programs in which the same is declared. -/
structure SameDeclarations (g g' : Graph) : Prop where
  declaration? : g.declaration? = g'.declaration?
  length : g.declarations.length = g'.declarations.length
  size : g.size = g'.size

variable {g g' : Graph}

namespace SameDeclarations

variable (h : g.SameDeclarations g')
include h

theorem symm : g'.SameDeclarations g :=
  ⟨h.declaration?.symm, h.length.symm, h.size.symm⟩

theorem model?_eq : g.model? = g'.model? := by
  funext id
  rw [model?, model?, h.declaration?]

theorem enum?_eq : g.enum? = g'.enum? := by
  funext id
  rw [enum?, enum?, h.declaration?]

theorem union?_eq : g.union? = g'.union? := by
  funext id
  rw [union?, union?, h.declaration?]

theorem scalar?_eq : g.scalar? = g'.scalar? := by
  funext id
  rw [scalar?, scalar?, h.declaration?]

theorem isStructural_eq : g.isStructural = g'.isStructural := by
  funext id
  rw [isStructural, isStructural, h.model?_eq]

theorem isDeclarable_eq : g.isDeclarable = g'.isDeclarable := by
  funext id
  rw [isDeclarable, isDeclarable, h.declaration?, h.isStructural_eq]

theorem isTagged_eq : g.isTagged = g'.isTagged := by
  funext id
  rw [isTagged_eq_isDeclarable, isTagged_eq_isDeclarable, h.isDeclarable_eq]

theorem mapValue?_eq : g.mapValue? = g'.mapValue? := by
  funext t
  unfold mapValue?
  rw [h.model?_eq]

theorem scalarChainFrom_eq (steps : Nat) (seen : List DeclId) (id : DeclId) :
    g.scalarChainFrom steps seen id = g'.scalarChainFrom steps seen id := by
  induction steps generalizing seen id with
  | zero => rfl
  | succ steps ih => simp only [scalarChainFrom, h.scalar?_eq, ih]

theorem scalarChain_eq : g.scalarChain = g'.scalarChain := by
  funext id
  rw [scalarChain, scalarChain, h.length, h.scalarChainFrom_eq]

theorem edge {t t' : Ty} (hedge : g.Edge t t') : g'.Edge t t' := by
  have hmodel := h.model?_eq
  have hunion := h.union?_eq
  cases hedge with
  | element => exact .element _
  | value => exact .value _
  | alternative h => exact .alternative h
  | member h => exact .member h
  | property hm h => exact .property (hmodel ▸ hm) h
  | base hm h => exact .base (hmodel ▸ hm) h
  | indexer hm h => exact .indexer (hmodel ▸ hm) h
  | variant hu hr h => exact .variant (hunion ▸ hu) hr h

/-- Types lead to the same types. -/
theorem reaches_eq : g.Reaches = g'.Reaches := by
  have hedge : g.Edge = g'.Edge := by
    funext t t'
    exact propext ⟨h.edge, h.symm.edge⟩
  unfold Reaches
  rw [hedge]

theorem properties?_eq : g.properties? = g'.properties? := by
  funext t
  cases t with
  | ref id => rw [properties?, properties?, h.model?_eq]
  | _ => rfl

theorem stringIndexer?_eq : g.stringIndexer? = g'.stringIndexer? := by
  funext t
  cases t with
  | ref id => rw [stringIndexer?, stringIndexer?, h.model?_eq]
  | _ => rfl

theorem reachFrom_eq (steps : Nat) : g.reachFrom steps = g'.reachFrom steps := by
  induction steps with
  | zero =>
    funext seen pending
    rfl
  | succ steps ih =>
    funext seen pending
    cases pending with
    | nil => rfl
    | cons t pending => cases t <;> simp only [reachFrom, h.declaration?, ih]

/-- Types lead to the same declarations, in the same order. -/
theorem reach_eq : g.reach = g'.reach := by
  funext t
  rw [reach, reach, h.size, h.reachFrom_eq]

/-- Types mark the same declarations, in the same order. -/
theorem mark_eq : UsageMap.mark g = UsageMap.mark g' := by
  funext usage use
  rw [UsageMap.mark, UsageMap.mark, h.reach_eq, h.isTagged_eq]

/-- If the same operations decide, in the same order, the usage map is the same. -/
theorem classify_eq (hoperations : g.consideredOperations = g'.consideredOperations) :
    g.classify = g'.classify := by
  rw [classify, classify, hoperations, h.mark_eq]

end SameDeclarations

end ApiEmit.Graph
