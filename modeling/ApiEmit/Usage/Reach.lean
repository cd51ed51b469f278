/-
ApiEmit.Usage.Reach — the declarations that some types lead to.

A type leads to the declarations it refers to and to whatever these are made of. A
reserved union hides what it is made of. The walk goes into a declaration the first
time it comes to it, before it goes on with the rest.
-/
import ApiEmit.Graph.Query

namespace ApiEmit.Graph

/-- The types that a declaration leads to. -/
def partsOf (id : DeclId) : Declaration → List Ty
  | .union u => if id.isReserved then [] else (Declaration.union u).types
  | d => d.types

/-- The declarations that some types lead to, without those already seen, in the order of the walk.
Each step takes a node off the pending types or opens a declaration for the first time, so the
nodes of both together bound the number of steps. -/
def reachFrom (g : Graph) : Nat → List DeclId → List Ty → List DeclId
  | 0, _, _ => []
  | _, _, [] => []
  | steps + 1, seen, type :: pending =>
    match type with
    | .ref id =>
      if seen.contains id then
        g.reachFrom steps seen pending
      else
        match g.declaration? id with
        | none => g.reachFrom steps seen pending
        | some d => id :: g.reachFrom steps (id :: seen) (partsOf id d ++ pending)
    | .array element => g.reachFrom steps seen (element :: pending)
    | .record value => g.reachFrom steps seen (value :: pending)
    | .union variants => g.reachFrom steps seen (variants ++ pending)
    | .model properties => g.reachFrom steps seen (properties.map (·.type) ++ pending)
    | _ => g.reachFrom steps seen pending

/-- The declarations that a type leads to, in the order of the walk. -/
def reach (g : Graph) (type : Ty) : List DeclId :=
  g.reachFrom (type.size + g.size + 1) [] [type]

end ApiEmit.Graph
