/-
ApiEmit.Usage.Classify — the usage of every type that operations reach.

The operations that count are those of the services. A program whose services have
none is taken as one service that spans all namespaces outside the reserved part of
the tree.
-/
import ApiEmit.Keyed
import ApiEmit.Usage.Basic
import ApiEmit.Usage.Reach

namespace ApiEmit

namespace Graph

/-- The operations that decide about usage. -/
def consideredOperations (g : Graph) : List Operation :=
  let ofServices := g.services.flatMap (·.operations)
  if ofServices.isEmpty then g.operations.filter (! ·.home.isReserved) else ofServices

/-- Whether a declaration is given roles: a model that is not structural, or an enum or a union
outside the reserved part of the tree. -/
def isTagged (g : Graph) (id : DeclId) : Bool :=
  match g.declaration? id with
  | some (.model _) => !(id.name == "" || id.isReserved)
  | some (.enum _) => !id.isReserved
  | some (.union _) => !id.isReserved
  | _ => false

end Graph

namespace Operation

/-- The types that an operation takes and gives, each with its role: body, parameters, responses. -/
def uses (op : Operation) : List (Ty × Role) :=
  (op.body.map fun b => (b.type, Role.input)).toList ++
    op.parameters.map (fun p => (p.type, Role.input)) ++
    op.responses.flatMap fun r => r.bodies.map fun b => (b.type, Role.output)

end Operation

namespace UsageMap

/-- Gives a role to all that a type leads to and that can have one. -/
def mark (g : Graph) (usage : UsageMap) (use : Ty × Role) : UsageMap :=
  ((g.reach use.1).filter g.isTagged).foldl (fun usage id => usage.insert id use.2) usage

end UsageMap

namespace Graph

/-- The usage of the types of a program. -/
def classify (g : Graph) : UsageMap :=
  (g.consideredOperations.flatMap (·.uses)).foldl (UsageMap.mark g) UsageMap.empty

end Graph

/-- The usage of types by qualified name; of two types with one name the later decides. -/
def UsageMap.byName (usage : UsageMap) : List (String × Usage) :=
  Keyed.ofList (·.1) (usage.entries.map fun (id, roles) => (id.qualifiedName, roles.usage))

end ApiEmit
