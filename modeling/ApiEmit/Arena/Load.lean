/-
ApiEmit.Arena.Load — from a document to an arena.

One pass gives every declaration a node and enters its name, and the passes after it fill the
nodes in, kind by kind: enums first, as defaults refer to their members, then scalars, unions and
models, and last the operations. Until its turn a declaration has a placeholder for its node,
while the nodes of inline types are added as they are met.
-/
import ApiEmit.Arena.Scope
import ApiEmit.Graph.Load

namespace ApiEmit.Arena

/-- Why there is no arena: the document is refused, or an index was followed that leads nowhere. -/
inductive Fault where
  | refused (e : LoadError)
  | outOfBounds
  deriving DecidableEq, Repr

/-- A step of loading: it changes the arena, or gives a fault. -/
abbrev Loader := StateT Arena (Except Fault)

namespace Loader

/-! ## Steps -/

/-- Refuses the document. -/
def refuse {α : Type} (e : LoadError) : Loader α := fun _ => .error (.refused e)

/-- What a question about the arena has for an answer. -/
def ask {α : Type} (question : Arena → Option α) : Loader α := fun a =>
  match question a with
  | some answer => .ok (answer, a)
  | none => .error .outOfBounds

/-- Adds a type. -/
def alloc (node : Node) : Loader TypeIndex := fun a =>
  .ok (⟨a.types.length⟩, { a with types := a.types ++ [node] })

/-- Puts a type where another stands. -/
def store (id : TypeIndex) (node : Node) : Loader Unit := fun a =>
  if id.position < a.types.length then
    .ok ((), { a with types := a.types.set id.position node })
  else
    .error .outOfBounds

/-- Changes a namespace. -/
def update (id : NamespaceIndex) (change : Namespace → Namespace) : Loader Unit := fun a =>
  if id.position < a.namespaces.length then
    .ok ((), { a with namespaces := a.namespaces.modify id.position change })
  else
    .error .outOfBounds

/-! ## Declaring -/

/-- Adds a namespace below another. -/
def addNamespace (name : String) (parent : NamespaceIndex) : Loader NamespaceIndex := do
  let id ← fun a => .ok (⟨a.namespaces.length⟩,
    { a with namespaces := a.namespaces ++ [{ name, parent := some parent }] })
  update parent fun ns => { ns with children := ns.children ++ [id] }
  return id

end Loader

/-- Adds a type to the declarations of a kind. -/
def Namespace.list (kind : Kind) (id : TypeIndex) (ns : Namespace) : Namespace :=
  match kind with
  | .model => { ns with models := ns.models ++ [id] }
  | .enum => { ns with enums := ns.enums ++ [id] }
  | .union => { ns with unions := ns.unions ++ [id] }
  | .scalar => { ns with scalars := ns.scalars ++ [id] }

/-- Enters the name of a type. -/
def Namespace.enter (name : String) (id : TypeIndex) (ns : Namespace) : Namespace :=
  { ns with declared := Keyed.put (·.1) (name, id) ns.declared }

namespace Loader

/-- Declares a built-in scalar, which restricts one that is declared already. -/
def declareBuiltIn (entry : String × Option String) : Loader Unit := do
  let ns ← ask (·.namespace? library)
  let base := entry.2.bind fun name => ns.declared.lookup name
  let id ← alloc (.scalar { name := entry.1, home := some library, base })
  update library (Namespace.list .scalar id)
  update library (Namespace.enter entry.1 id)

/-- Declares the built-in scalars. -/
def declareLibrary : Loader Unit := do
  let _ ← addNamespace NamespaceId.reservedName ⟨0⟩
  Library.scalars.forM declareBuiltIn

/-- Gives a name in a namespace a node, which is filled in later. -/
def declare (home : NamespaceIndex) (name : String) : Loader TypeIndex := do
  let ns ← ask (·.namespace? home)
  if (ns.declared.lookup name).isSome then
    refuse (.duplicate (← ask (·.qualify? home name)))
  else
    let id ← alloc .placeholder
    update home (Namespace.enter name id)
    return id

/-- Declares a name as a kind. -/
def declareAs (kind : Kind) (home : NamespaceIndex) (name : String) : Loader TypeIndex := do
  let id ← declare home name
  update home (Namespace.list kind id)
  return id

/-- A declaration with its node and its namespace. -/
structure Slot (α : Type) where
  written : α
  id : TypeIndex
  home : NamespaceIndex

/-- Declares what a namespace has of one kind. -/
def declareAll {α : Type} (kind : Kind) (name : α → String) (home : NamespaceIndex)
    (declarations : List α) : Loader (List (Slot α)) :=
  declarations.mapM fun written => return ⟨written, ← declareAs kind home (name written), home⟩

/-- What is left to fill in. -/
structure Pending where
  namespaces : List (Document.Namespace × NamespaceIndex) := []
  models : List (Slot Document.Model) := []
  enums : List (Slot Document.Enum) := []
  unions : List (Slot Document.Union) := []
  scalars : List (Slot Document.Scalar) := []

instance : Append Pending where
  append p q :=
    { namespaces := p.namespaces ++ q.namespaces
      models := p.models ++ q.models
      enums := p.enums ++ q.enums
      unions := p.unions ++ q.unions
      scalars := p.scalars ++ q.scalars }

/-- Notes what a namespace says about itself, and declares what it has, but for the namespaces
below it. -/
def declareIn (id : NamespaceIndex) (ns : Document.Namespace) : Loader Pending := do
  update id fun node =>
    { node with
      doc := ns.doc, service := ns.service.map fun s => ⟨s.title⟩, servers := ns.servers }
  let models ← declareAll .model (·.name) id ns.models
  let enums ← declareAll .enum (·.name) id ns.enums
  let unions ← declareAll .union (·.name) id ns.unions
  let scalars ← declareAll .scalar (·.name) id ns.scalars
  return { namespaces := [(ns, id)], models, enums, unions, scalars }

mutual

/-- Declares a namespace and those below it. -/
def declareNamespace (id : NamespaceIndex) : Document.Namespace → Loader Pending
  | ns@{ namespaces := children, .. } => do
    let pending ← declareIn id ns
    return pending ++ (← declareChildren id children)

/-- Declares the namespaces right below one, each with those below it. -/
def declareChildren (parent : NamespaceIndex) : List Document.Namespace → Loader Pending
  | [] => return {}
  | ns :: rest => do
    let id ← addNamespace ns.name parent
    let pending ← declareNamespace id ns
    return pending ++ (← declareChildren parent rest)

end

/-! ## Resolving -/

/-- The type that a name refers to. -/
def reference (scope : NamespaceIndex) (context name : String) : Loader TypeIndex := do
  match ← ask (·.lookup? scope name) with
  | some id => return id
  | none => refuse (.unresolved name context)

/-- The intrinsic of a name that is marked as one. -/
def intrinsic (context name : String) : Loader TypeIndex :=
  match Intrinsic.ofName? name with
  | some i =>
    match i.index? with
    | some id => return id
    | none => alloc (.intrinsic i)
  | none => refuse (.unresolved name context)

/-- An instance of a container for the values of a type. -/
def container (name : String) (key : IndexKey) (value : TypeIndex) : Node :=
  .model { name, home := some library, indexer := some { key, value } }

mutual

/-- The type that an expression stands for. -/
def type (scope : NamespaceIndex) (context : String) : Document.Expr → Loader TypeIndex
  | .ref name => reference scope context name
  | .intrinsic name => intrinsic context name
  | .string s => alloc (.string s)
  | .number n => alloc (.number n)
  | .boolean b => alloc (.boolean b)
  | .array element => do alloc (container "Array" .integer (← type scope context element))
  | .record value => do alloc (container "Record" .string (← type scope context value))
  | .union variants => do
    let types ← types scope context variants
    alloc (.union { variants := types.map (⟨none, ·⟩) })
  | .model properties => do
    let properties ← inlineProperties scope context properties
    alloc (.model { properties := Keyed.ofList (·.name) properties })

/-- The types that some expressions stand for. -/
def types (scope : NamespaceIndex) (context : String) :
    List Document.Expr → Loader (List TypeIndex)
  | [] => return []
  | e :: es => return (← type scope context e) :: (← types scope context es)

/-- The properties of an inline model, repeated ones included. -/
def inlineProperties (scope : NamespaceIndex) (context : String) :
    List (InlineProperty Document.Expr) → Loader (List Property)
  | [] => return []
  | ⟨name, written, optional, doc⟩ :: ps => do
    let property := { name, type := ← type scope context written, optional, doc }
    return property :: (← inlineProperties scope context ps)

end

/-! ## Filling in -/

/-- Whether a type is of a kind, or will be when it is filled in. -/
def isOf? (kind : Kind) (id : TypeIndex) (a : Arena) : Option Bool := do
  let node ← a.type? id
  return node.kind? == some kind || a.namespaces.any fun ns => (ns.listed kind).contains id

/-- The declaration of a certain kind that a name refers to. -/
def declarationOf (scope : NamespaceIndex) (context : String) (expected : Kind)
    (name : String) : Loader TypeIndex := do
  let id ← reference scope context name
  if ← ask (isOf? expected id) then return id else refuse (.wrongKind name context expected)

/-- Fills in an enum. -/
def fillEnum (slot : Slot Document.Enum) : Loader Unit :=
  store slot.id <| .enum
    { name := slot.written.name, home := some slot.home, members := slot.written.members,
      doc := slot.written.doc }

/-- Fills in a scalar. -/
def fillScalar (slot : Slot Document.Scalar) : Loader Unit := do
  let context ← ask (·.qualify? slot.home slot.written.name)
  let base ← slot.written.base.mapM (declarationOf slot.home context .scalar)
  store slot.id <| .scalar
    { name := slot.written.name, home := some slot.home, base, doc := slot.written.doc,
      constraints := slot.written.constraints }

/-- Fills in a union. -/
def fillUnion (slot : Slot Document.Union) : Loader Unit := do
  let context ← ask (·.qualify? slot.home slot.written.name)
  let variants ← slot.written.variants.mapM fun v =>
    return ⟨v.name, ← type slot.home context v.type⟩
  store slot.id <| .union
    { name := some slot.written.name, home := some slot.home, variants, doc := slot.written.doc }

/-- The default that a value stands for at a property of a type. -/
def defaultOf? (value : Json.Value) (type : TypeIndex) (a : Arena) :
    Option (Option DefaultValue) :=
  (a.type? type).map fun node =>
    match value with
    | .string s =>
      let member : Option DefaultValue :=
        match node with
        | .enum e => (e.members.findIdx? (·.name == s)).map (.member type)
        | _ => none
      some (member.getD (.string s))
    | .number n => some (.number n)
    | .bool b => some (.boolean b)
    | .null => some .null
    | _ => none

/-- A property with its type and default. -/
def property (scope : NamespaceIndex) (context : String) (p : Document.Property) :
    Loader Property := do
  let type ← type scope (context ++ "." ++ p.name) p.type
  let default ← p.default.mapM fun value => ask (defaultOf? value type)
  return { name := p.name, type, optional := p.optional, default := default.join, doc := p.doc,
           constraints := p.constraints }

/-- Fills in a model: first its base, then the type of its further values, then its properties. -/
def fillModel (slot : Slot Document.Model) : Loader Unit := do
  let context ← ask (·.qualify? slot.home slot.written.name)
  let base ← slot.written.base.mapM (declarationOf slot.home context .model)
  let indexer ← slot.written.indexer.mapM (type slot.home context)
  let properties ← slot.written.properties.mapM (property slot.home context)
  store slot.id <| .model
    { name := slot.written.name, home := some slot.home,
      properties := Keyed.ofList (·.name) properties, base,
      indexer := indexer.map fun value => { key := .string, value },
      doc := slot.written.doc, constraints := slot.written.constraints }

/-! ## Operations -/

/-- A payload. -/
def body (scope : NamespaceIndex) (context : String) (b : Document.Body) : Loader Body := do
  let type ← type scope context b.type
  return {
    type, contentTypes := if b.contentTypes.isEmpty then [Load.jsonContentType]
                          else b.contentTypes }

/-- A parameter. -/
def parameter (scope : NamespaceIndex) (context : String) (p : Document.Parameter) :
    Loader Parameter :=
  return { name := p.name, location := p.location, type := ← type scope context p.type,
           optional := p.optional, doc := p.doc }

/-- A response. -/
def response (scope : NamespaceIndex) (context : String) (r : Document.Response) :
    Loader Response :=
  return { status := r.status, description := r.description,
           bodies := ← r.bodies.mapM (body scope context) }

/-- An operation: first its parameters, then its body, then its responses. -/
def operation (container : Container) (op : Document.Operation) : Loader Operation := do
  let name := match container.interface? with
    | some group => group ++ "." ++ op.name
    | none => op.name
  let context ← ask (·.qualify? container.home name)
  let parameters ← op.parameters.mapM (parameter container.home context)
  let body ← op.body.mapM (body container.home context)
  let responses ← op.responses.mapM (response container.home context)
  return { name := op.name, container, verb := op.verb, path := op.path, doc := op.doc,
           summary := op.summary, parameters, body, responses }

/-- Adds an operation, which its namespace lists. -/
def addOperation (container : Container) (op : Document.Operation) : Loader Unit := do
  let op ← operation container op
  let id ← fun a => .ok (⟨a.operations.length⟩, { a with operations := a.operations ++ [op] })
  update container.home fun ns => { ns with operations := ns.operations ++ [id] }

/-- Adds the operations of a namespace: its own, then those of its interfaces. -/
def addOperations (pending : Document.Namespace × NamespaceIndex) : Loader Unit := do
  pending.1.operations.forM (addOperation (.namespace pending.2))
  pending.1.interfaces.forM fun i =>
    i.operations.forM (addOperation (.interface pending.2 i.name))

/-! ## Loading -/

/-- Loads a document: all names are declared before anything is filled in. -/
def load (doc : Document) : Loader Unit := do
  declareLibrary
  let pending ← declareNamespace ⟨0⟩ doc.root
  pending.enums.forM fillEnum
  pending.scalars.forM fillScalar
  pending.unions.forM fillUnion
  pending.models.forM fillModel
  pending.namespaces.forM addOperations
  modify fun a => { a with diagnostics := doc.diagnostics }

end Loader

/-- What loading starts with: the intrinsics, and a global namespace without a name. -/
def blank : Arena where
  types := [.intrinsic .null, .intrinsic .void, .intrinsic .never, .intrinsic .unknown]
  namespaces := [{}]
  operations := []
  global := ⟨0⟩
  diagnostics := []

/-- The arena of a document. -/
def ofDocument (doc : Document) : Except Fault Arena :=
  ((Loader.load doc).run blank).map (·.2)

end ApiEmit.Arena
