/-
ApiEmit.Graph.Scope — what a name means.

A name is a path of segments. It is looked up in the namespace where it stands and
then in each namespace around that one, from the inside out; after them come the
intrinsics and last the built-in scalars. From the namespace where the search
starts, all segments but the last lead down the tree, each to the first child of
that name, and the last is a declaration.
-/
import ApiEmit.Graph.Basic
import ApiEmit.Text.Split

namespace ApiEmit

/-- What a name can mean. -/
inductive Target where
  | declared (id : DeclId) (kind : Kind)
  | intrinsic (i : Intrinsic)
  deriving DecidableEq, Repr

namespace Scope

/-- The first child of a namespace with a name. -/
def child? (namespaces : List Namespace) (parent : NamespaceId) (name : String) :
    Option NamespaceId :=
  (namespaces.find? fun ns => ns.id.parent? == some parent && ns.id.name == name).map (·.id)

/-- The kind of the declaration of a name directly in a namespace. -/
def kindIn? (namespaces : List Namespace) (id : NamespaceId) (name : String) : Option Kind :=
  (namespaces.find? (·.id == id)).bind (·.declared.lookup name)

/-- The declaration at the end of a path that starts at a namespace. -/
def lookupIn? (namespaces : List Namespace) (start : NamespaceId) : List String → Option Target
  | [] => none
  | [name] => (kindIn? namespaces start name).map (.declared ⟨start, name⟩)
  | segment :: rest =>
    (child? namespaces start segment).bind fun inner => lookupIn? namespaces inner rest

/-- The intrinsic that a bare name means. The error type has no bare name. -/
def intrinsic? (name : String) : Option Target :=
  ((Intrinsic.ofName? name).filter (· ≠ .error)).map .intrinsic

/-- What a name means in a namespace. -/
def lookup? (namespaces : List Namespace) (scope : NamespaceId) (name : String) : Option Target :=
  let path := Text.split '.' name
  ((scope.enclosing.findSome? (lookupIn? namespaces · path)).or (intrinsic? name)).or
    (lookupIn? namespaces NamespaceId.library path)

end Scope

end ApiEmit
