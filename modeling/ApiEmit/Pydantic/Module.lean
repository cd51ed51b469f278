/-
ApiEmit.Pydantic.Module — modules of declarations.

Enums come first, then aliases, then classes, a class behind its base when the
module has both. What a module imports is read off its declarations.
-/
import ApiEmit.Pydantic.Definition

namespace ApiEmit.Pydantic

open Python (TypeHint Import Statement)

/-! ## Order -/

/-- A model and its bases, as far as they are among the models given and not yet placed. No step
comes back to a model, so as many steps as there are models are enough. -/
def baseChain (g : Graph) (models : List DeclId) : Nat → List DeclId → DeclId → List DeclId
  | 0, _, _ => []
  | steps + 1, placed, id =>
    if placed.contains id then
      []
    else
      id :: (match (g.model? id).bind (·.base) with
        | some base =>
          if models.contains base then baseChain g models steps (id :: placed) base else []
        | none => [])

/-- Places a model behind those of its bases that are not placed. -/
def placeModel (g : Graph) (models : List DeclId) (placed : List DeclId) (id : DeclId) :
    List DeclId :=
  placed ++ (baseChain g models models.length placed id).reverse

/-- The models among some declarations, each once and behind its base. -/
def orderModels (g : Graph) (decls : List DeclId) : List DeclId :=
  let models := decls.filter fun id => (g.model? id).isSome
  models.foldl (placeModel g models) []

/-! ## Imports -/

/-- The type hints of a declaration with all that is within them. -/
def statementHints : Statement → List TypeHint
  | .enum _ => []
  | .alias a => a.value.walk
  | .model c => c.fields.flatMap (·.hint.walk)

/-- The imported name that a type hint needs by itself. -/
def importedName? : TypeHint → Option String
  | .optional _ => some "Optional"
  | .union _ => some "Union"
  | .list _ => some "List"
  | .dict _ => some "Dict"
  | .primitive .any => some "Any"
  | .primitive .datetime => some "datetime"
  | .primitive .timedelta => some "timedelta"
  | _ => none

/-- The base that an enum class needs. -/
def importedBase? : Statement → Option String
  | .enum e => some e.base.name
  | _ => none

/-- Whether a declaration is a model class. -/
def isModelClass : Statement → Bool
  | .model _ => true
  | _ => false

/-- Whether a field is set by a call. -/
def isCall (f : Python.Field) : Bool := f.value matches .call _

/-- Whether a declaration has a field that is set by a call. -/
def hasCall : Statement → Bool
  | .model c => c.fields.any isCall
  | _ => false

/-- An import, unless it has no names. -/
def importOf (source : String) (names : List String) : List Import :=
  if names.isEmpty then [] else [⟨source, names⟩]

/-- The imports that some declarations need. -/
def importsOf (statements : List Statement) : List Import :=
  let needed := (statements.flatMap statementHints).filterMap importedName?
  let used := fun name => needed.contains name
  importOf "typing" (["Optional", "Union", "List", "Dict", "Any"].filter used) ++
    importOf "enum" (Keyed.firsts id (statements.filterMap importedBase?)) ++
    importOf "datetime" (["datetime", "timedelta"].filter used) ++
    importOf "pydantic" (if statements.any isModelClass then
      rootBase :: (if statements.any hasCall then ["Field"] else []) else [])

/-! ## Modules -/

/-- The class of an enum among declarations. -/
def enumStatement? (g : Graph) (names : NameTable) (id : DeclId) : Option Statement :=
  (g.enum? id).map fun e => .enum (enumDef (names.nameOf id) e)

/-- The alias of a union among declarations. -/
def aliasStatement? (g : Graph) (names : NameTable) (id : DeclId) : Option Statement :=
  (g.union? id).map fun u => .alias (aliasDef g names (names.nameOf id) u)

/-- The class of a model among declarations. -/
def classStatement? (g : Graph) (names : NameTable) (id : DeclId) : Option Statement :=
  (g.model? id).map fun m => .model (classDef g names (names.nameOf id) m)

/-- The declarations of a module: enums, aliases, classes. -/
def statements (g : Graph) (names : NameTable) (decls : List DeclId) : List Statement :=
  decls.filterMap (enumStatement? g names) ++ decls.filterMap (aliasStatement? g names) ++
    (orderModels g decls).filterMap (classStatement? g names)

/-- The module of some declarations. -/
def moduleOf (g : Graph) (names : NameTable) (decls : List DeclId) : Python.Module :=
  let body := statements g names decls
  ⟨importsOf body, body⟩

end ApiEmit.Pydantic
