/-
ApiEmit.Graph.Load — from a document to a graph.

First every name is declared, then every declaration is resolved, so it makes no
difference where in the document a name is declared. Of several faults the first
is reported: a name declared twice comes before all others, and after it faults in
scalars, unions, models and operations, in this order.
-/
import ApiEmit.Document.Reader
import ApiEmit.Graph.Library
import ApiEmit.Graph.Scope
import ApiEmit.Keyed

namespace ApiEmit

/-- Why a program cannot be loaded. -/
inductive LoadError where
  | malformed
  | unresolved (reference context : String)
  | duplicate (name : String)
  | wrongKind (reference context : String) (expected : Kind)
  deriving DecidableEq, Repr

/-- The message for an error. -/
def LoadError.message : LoadError → String
  | .malformed => "Failed to parse program document"
  | .unresolved reference context =>
    "Unresolved type reference '" ++ reference ++ "' in " ++ context
  | .duplicate name => "Duplicate declaration '" ++ name ++ "'"
  | .wrongKind reference context expected =>
    "'" ++ reference ++ "' in " ++ context ++ " does not name a " ++ expected.text

namespace Load

/-! ## Declaring -/

/-- A namespace of a document and its place in the tree. -/
structure Site where
  id : NamespaceId
  content : Document.Namespace

mutual

/-- A namespace and those below it. -/
def sites (id : NamespaceId) : Document.Namespace → List Site
  | ns@{ namespaces := children, .. } => ⟨id, ns⟩ :: sitesBelow id 1 children

/-- The namespaces that are children of one, counted from a position, each with those below it. -/
def sitesBelow (parent : NamespaceId) (position : Nat) : List Document.Namespace → List Site
  | [] => []
  | ns :: rest =>
    sites (parent.child position ns.name) ns ++ sitesBelow parent (position + 1) rest

end

/-- The namespace of a site, with the names declared in it. -/
def Site.declare (site : Site) : Namespace :=
  { id := site.id
    doc := site.content.doc
    service := site.content.service.map fun s => ⟨s.title⟩
    servers := site.content.servers
    models := site.content.models.map (·.name)
    enums := site.content.enums.map (·.name)
    unions := site.content.unions.map (·.name)
    scalars := site.content.scalars.map (·.name) }

/-- The first entry of a list that has occurred before. -/
def firstRepeated? (seen : List String) : List String → Option String
  | [] => none
  | name :: rest => if seen.contains name then some name else firstRepeated? (name :: seen) rest

/-- Refuses a name that is declared twice in a namespace. -/
def checkDistinct (ns : Namespace) : Except LoadError Unit :=
  match firstRepeated? [] (ns.declared.map (·.1)) with
  | some name => .error (.duplicate (ns.id.qualify name))
  | none => .ok ()

/-! ## Resolving -/

/-- Where a name stands: among which namespaces, in which of them, and in what. -/
structure Place where
  namespaces : List Namespace
  home : NamespaceId
  context : String

namespace Place

/-- The type that a name refers to. -/
def reference (place : Place) (name : String) : Except LoadError Ty :=
  match Scope.lookup? place.namespaces place.home name with
  | some (.declared id _) => .ok (.ref id)
  | some (.intrinsic i) => .ok (.intrinsic i)
  | none => .error (.unresolved name place.context)

/-- The declaration of a certain kind that a name refers to. -/
def declarationOf (place : Place) (expected : Kind) (name : String) : Except LoadError DeclId :=
  match Scope.lookup? place.namespaces place.home name with
  | some (.declared id kind) =>
    if kind = expected then .ok id else .error (.wrongKind name place.context expected)
  | some (.intrinsic _) => .error (.wrongKind name place.context expected)
  | none => .error (.unresolved name place.context)

/-- The intrinsic of a name that is marked as one. -/
def intrinsic (place : Place) (name : String) : Except LoadError Ty :=
  match Intrinsic.ofName? name with
  | some i => .ok (.intrinsic i)
  | none => .error (.unresolved name place.context)

mutual

/-- The type that an expression stands for. -/
def type (place : Place) : Document.Expr → Except LoadError Ty
  | .ref name => place.reference name
  | .intrinsic name => place.intrinsic name
  | .string s => .ok (.string s)
  | .number n => .ok (.number n)
  | .boolean b => .ok (.boolean b)
  | .array element => return .array (← place.type element)
  | .record value => return .record (← place.type value)
  | .union variants => return .union (← place.types variants)
  | .model properties => return .model (Keyed.ofList (·.name) (← place.inlineProperties properties))

/-- The types that some expressions stand for. -/
def types (place : Place) : List Document.Expr → Except LoadError (List Ty)
  | [] => .ok []
  | e :: es => return (← place.type e) :: (← place.types es)

/-- The properties of an inline model, repeated ones included. -/
def inlineProperties (place : Place) :
    List (InlineProperty Document.Expr) → Except LoadError (List (InlineProperty Ty))
  | [] => .ok []
  | ⟨name, type, optional, doc⟩ :: ps =>
    return ⟨name, ← place.type type, optional, doc⟩ :: (← place.inlineProperties ps)

end

end Place

/-- The enums of a program, which no name has to be looked up for. -/
abbrev Enums := List (DeclId × EnumDecl)

/-- The default of a property that a value stands for. A text that names a member of the enum is
that member; a value with parts is no default. -/
def defaultOf? (enums : Enums) (type : Ty) : Json.Value → Option DefaultValue
  | .string s =>
    let member : Option DefaultValue :=
      match type with
      | .ref id =>
        (enums.lookup id).bind fun e =>
          (e.members.findIdx? (·.name == s)).map (.member id)
      | _ => none
    some (member.getD (.string s))
  | .number n => some (.number n)
  | .bool b => some (.boolean b)
  | _ => none

/-- A property with its type and default. -/
def property (enums : Enums) (place : Place) (p : Document.Property) :
    Except LoadError Property := do
  let type ← { place with context := place.context ++ "." ++ p.name }.type p.type
  return { name := p.name, type, optional := p.optional,
           default := p.default.bind (defaultOf? enums type), doc := p.doc,
           constraints := p.constraints }

/-- A value that may be absent, resolved if it is there. -/
def resolveOptional {α β : Type} (resolve : α → Except LoadError β) :
    Option α → Except LoadError (Option β)
  | none => .ok none
  | some a => return some (← resolve a)

/-- A model: first its base, then the type of its further values, then its properties. -/
def model (enums : Enums) (place : Place) (m : Document.Model) : Except LoadError Declaration := do
  let base ← resolveOptional (place.declarationOf .model) m.base
  let indexer ← resolveOptional place.type m.indexer
  let properties ← m.properties.mapM (property enums place)
  return .model { doc := m.doc, base, indexer, properties := Keyed.ofList (·.name) properties,
                  constraints := m.constraints }

/-- A scalar with its base. -/
def scalar (place : Place) (s : Document.Scalar) : Except LoadError Declaration := do
  let base ← resolveOptional (place.declarationOf .scalar) s.base
  return .scalar { doc := s.doc, base, constraints := s.constraints }

/-- A union with its variants. -/
def union (place : Place) (u : Document.Union) : Except LoadError Declaration := do
  let variants ← u.variants.mapM fun v => return ⟨v.name, ← place.type v.type⟩
  return .union { doc := u.doc, variants }

/-- The content type of a payload that names none. -/
def jsonContentType : String := "application/json"

/-- A payload. -/
def body (place : Place) (b : Document.Body) : Except LoadError Body := do
  let type ← place.type b.type
  return {
    type, contentTypes := if b.contentTypes.isEmpty then [jsonContentType] else b.contentTypes }

/-- An operation: first its parameters, then its body, then its responses. -/
def operation (namespaces : List Namespace) (home : NamespaceId) (interface : Option String)
    (op : Document.Operation) : Except LoadError Operation := do
  let name := match interface with
    | some group => group ++ "." ++ op.name
    | none => op.name
  let place : Place := ⟨namespaces, home, home.qualify name⟩
  let parameters ← op.parameters.mapM fun p => do
    let type ← place.type p.type
    return { name := p.name, location := p.location, type, optional := p.optional, doc := p.doc
             : Parameter }
  let payload ← resolveOptional (body place) op.body
  let responses ← op.responses.mapM fun r => do
    let bodies ← r.bodies.mapM (body place)
    return { status := r.status, description := r.description, bodies : Response }
  return { home, interface, name := op.name, verb := op.verb, path := op.path, doc := op.doc,
           summary := op.summary, parameters, body := payload, responses }

/-- The operations of a namespace in their order: its own, then those of its interfaces. -/
def Site.operations (site : Site) : List (NamespaceId × Option String × Document.Operation) :=
  site.content.operations.map (site.id, none, ·) ++
    site.content.interfaces.flatMap fun i => i.operations.map (site.id, some i.name, ·)

/-! ## Loading -/

/-- The entries of all sites, each with the identity that its name has there. -/
def entries {α : Type} (list : Document.Namespace → List α) (name : α → String)
    (all : List Site) : List (DeclId × α) :=
  all.flatMap fun site => (list site.content).map fun a => (⟨site.id, name a⟩, a)

/-- Resolves the declarations of one kind. -/
def resolveAll {α : Type} (namespaces : List Namespace)
    (resolve : Place → α → Except LoadError Declaration) (declared : List (DeclId × α)) :
    Except LoadError (List (DeclId × Declaration)) :=
  declared.mapM fun (id, a) =>
    return (id, ← resolve ⟨namespaces, id.home, id.qualifiedName⟩ a)

end Load

/-- The graph of a document. -/
def Graph.ofDocument (doc : Document) : Except LoadError Graph := do
  let below := Load.sitesBelow .root 1 doc.root.namespaces
  let rootSite : Load.Site := ⟨.root, doc.root⟩
  let all := rootSite :: below
  let namespaces := rootSite.declare :: Library.namespaceEntry :: below.map (·.declare)
  all.forM fun site => Load.checkDistinct site.declare
  let enums : Load.Enums :=
    (Load.entries (·.enums) (·.name) all).map fun (id, e) => (id, ⟨e.doc, e.members⟩)
  let scalars ← Load.resolveAll namespaces Load.scalar (Load.entries (·.scalars) (·.name) all)
  let unions ← Load.resolveAll namespaces Load.union (Load.entries (·.unions) (·.name) all)
  let models ← Load.resolveAll namespaces (Load.model enums)
    (Load.entries (·.models) (·.name) all)
  let operations ← (all.flatMap (·.operations)).mapM fun (home, interface, op) =>
    Load.operation namespaces home interface op
  return {
    namespaces
    declarations := Library.declarations ++ enums.map (fun (id, e) => (id, .enum e)) ++ scalars ++
      unions ++ models
    operations
    diagnostics := doc.diagnostics }

/-- The graph of a program in JSON. -/
def Graph.ofJson (text : String) : Except LoadError Graph :=
  match Document.ofText? text with
  | some doc => Graph.ofDocument doc
  | none => .error .malformed

end ApiEmit
