/-
ApiEmit.Arena.Scope — what a name means in an arena.

The search goes through the lists that the namespaces keep: the children of a namespace by their
names, the table of what it declares, and the namespace around it.
-/
import ApiEmit.Arena.Query
import ApiEmit.Text.Split

namespace ApiEmit

/-- The type of an intrinsic that every arena starts with. The error type is not one of them. -/
def Intrinsic.index? : Intrinsic → Option TypeIndex
  | .null => some ⟨0⟩
  | .void => some ⟨1⟩
  | .never => some ⟨2⟩
  | .unknown => some ⟨3⟩
  | .error => none

namespace Arena

/-- The namespace of the built-in scalars. -/
def library : NamespaceIndex := ⟨1⟩

/-- The first of some namespaces with a name. -/
def firstNamed? (a : Arena) (name : String) : List NamespaceIndex → Option (Option NamespaceIndex)
  | [] => some none
  | id :: rest => do
    if (← a.namespace? id).name = name then return some id else a.firstNamed? name rest

/-- The type at the end of a path that starts at a namespace. -/
def lookupIn? (a : Arena) (start : NamespaceIndex) : List String → Option (Option TypeIndex)
  | [] => some none
  | [name] => (a.namespace? start).map (·.declared.lookup name)
  | segment :: rest => do
    let ns ← a.namespace? start
    match ← a.firstNamed? segment ns.children with
    | none => return none
    | some inner => a.lookupIn? inner rest

/-- The type that a path leads to from a namespace or else from the nearest one around it. -/
def lookupAround? (a : Arena) (path : List String) : Nat → NamespaceIndex →
    Option (Option TypeIndex)
  | 0, _ => none
  | steps + 1, scope => do
    match ← a.lookupIn? scope path with
    | some id => return some id
    | none =>
      match (← a.namespace? scope).parent with
      | none => return none
      | some outer => a.lookupAround? path steps outer

/-- What a name means in a namespace: it is looked for around it, then among the intrinsics, and
last among the built-in scalars. -/
def lookup? (a : Arena) (scope : NamespaceIndex) (name : String) : Option (Option TypeIndex) := do
  let path := Text.split '.' name
  match ← a.lookupAround? path a.namespaces.length scope with
  | some id => return some id
  | none =>
    match (Intrinsic.ofName? name).bind Intrinsic.index? with
    | some id => return some id
    | none => a.lookupIn? library path

end Arena

end ApiEmit
