/-
ApiEmit.Reference.Document — the reference document of a service.

The operations stand in groups by interface. An error response that at least half
of the operations have is written once behind them all, and each operation refers
to it. Responses are the same when their status and the names shown for their types
are.
-/
import ApiEmit.Keyed
import ApiEmit.Reference.Example
import ApiEmit.Reference.Markdown
import ApiEmit.Reference.StatusText
import ApiEmit.Reference.TypeName

namespace ApiEmit.Reference

open Markdown (block cell code fence heading row rule)

/-! ## Bodies -/

/-- Whether some content types take a JSON example. -/
def isJsonContent (contentTypes : List String) : Bool :=
  contentTypes.isEmpty ||
    contentTypes.any fun t => t == "application/json" || "+json".toList.isSuffixOf t.toList

/-- Whether a value has to be given. -/
def requiredText (optional : Bool) : String := if optional then "No" else "Yes"

/-- The row of a property. -/
def propertyRow (g : Graph) (p : Property) : String :=
  row [cell p.name, code (cell (typeName g p.type)), requiredText p.optional,
    cell (describe g p.doc p.type)]

/-- The table of some properties. -/
def propertyTable (g : Graph) (properties : List Property) : List String :=
  block (row ["Property", "Type", "Required", "Description"] :: rule 4 ::
    properties.map (propertyRow g))

/-- The content types of a payload, an example, and the properties of a model. -/
def bodyLines (g : Graph) (b : Body) : List String :=
  (if b.contentTypes.isEmpty then [] else
    block ["Content-Type: " ++ String.intercalate ", " b.contentTypes]) ++
  (if isJsonContent b.contentTypes then
    match example? g b.type 0 with
    | some value => block [fence "json", value.pretty, fence ""]
    | none => []
  else []) ++
  (match g.properties? b.type with
    | none => []
    | some [] => []
    | some properties => propertyTable g properties)

/-! ## Responses -/

/-- A response: its status with a description, and its payloads. -/
def responseLines (g : Graph) (r : Response) : List String :=
  let title := match r.description.or (statusDescription? r.status) with
    | some description => r.status.text ++ " " ++ description
    | none => r.status.text
  block [heading 5 title] ++ r.bodies.flatMap (bodyLines g)

/-- The heading of a response: its status, and what is said about it or about the status. -/
theorem prefix_responseLines (g : Graph) (r : Response) :
    ["##### " ++ r.status.text ++
      (((r.description.or (statusDescription? r.status)).map (" " ++ ·)).getD ""), ""] <+:
        responseLines g r := by
  unfold responseLines
  refine List.IsPrefix.trans ?_ (List.prefix_append _ _)
  cases r.description.or (statusDescription? r.status) with
  | none =>
    rw [Option.map_none, Option.getD_none, String.append_empty]
    exact List.prefix_rfl
  | some description =>
    have hassoc : "##### " ++ r.status.text ++ (" " ++ description) =
        heading 5 (r.status.text ++ " " ++ description) := by
      simp only [heading, String.append_assoc]
      rfl
    rw [Option.map_some, Option.getD_some, hassoc]
    exact List.prefix_rfl

/-- What a payload adds to the fingerprint of its response. -/
def bodyPrint (g : Graph) (b : Body) : List String :=
  typeName g b.type ::
    ((g.properties? b.type).getD []).map fun p => p.name ++ ":" ++ typeName g p.type

/-- What tells error responses apart: the status, and the types and properties as shown. -/
def fingerprint (g : Graph) (r : Response) : String :=
  r.status.text ++ "|" ++ String.intercalate "," (r.bodies.flatMap (bodyPrint g))

/-- The error responses of an operation by fingerprint, the first of each. -/
def errorsOf (g : Graph) (op : Operation) : List (String × Response) :=
  Keyed.firsts (·.1) ((op.responses.filter (·.status.isError)).map fun r => (fingerprint g r, r))

/-- The error responses that at least half of the operations have, by fingerprint, each with the
lines of the first such response. A single operation shares nothing. -/
def commonErrors (g : Graph) (operations : List Operation) : List (String × List String) :=
  if operations.length ≤ 1 then
    []
  else
    (Keyed.groupBy (·.1) (operations.flatMap (errorsOf g))).filterMap fun (print, found) =>
      match found with
      | [] => none
      | (_, r) :: _ =>
        if operations.length ≤ 2 * found.length then some (print, responseLines g r) else none

/-! ## Operations -/

/-- The row of a parameter. -/
def parameterRow (g : Graph) (p : Parameter) : String :=
  row [cell p.name, p.location.text, code (cell (typeName g p.type)), requiredText p.optional,
    cell (describe g p.doc p.type)]

/-- The parameters of an operation, if it has any. -/
def parameterLines (g : Graph) (parameters : List Parameter) : List String :=
  if parameters.isEmpty then [] else
    block [heading 4 "Parameters"] ++
      block (row ["Name", "In", "Type", "Required", "Description"] :: rule 5 ::
        parameters.map (parameterRow g))

/-- Whether a type is an intrinsic. -/
def isIntrinsicType : Ty → Bool
  | .intrinsic _ => true
  | _ => false

/-- The body of a request, if there is one that has a shape. -/
def requestLines (g : Graph) : Option Body → List String
  | none => []
  | some b =>
    if isIntrinsicType b.type then [] else block [heading 4 "Request Body"] ++ bodyLines g b

/-- Whether a response is written with the common errors. -/
def isHoisted (g : Graph) (common : List (String × List String)) (r : Response) : Bool :=
  r.status.isError && (common.lookup (fingerprint g r)).isSome

/-- The responses of an operation, if it has any: those of its own in full, then the statuses of
those that are common errors. -/
def responsesLines (g : Graph) (common : List (String × List String)) (responses : List Response) :
    List String :=
  if responses.isEmpty then [] else
    let hoisted := (responses.filter (isHoisted g common)).map (·.status.text)
    block [heading 4 "Responses"] ++
      (responses.filter (! isHoisted g common ·)).flatMap (responseLines g) ++
      (if hoisted.isEmpty then [] else
        block ["This operation also returns [common errors](#common-errors) (" ++
          String.intercalate ", " hoisted ++ ")."])

/-- The section of an operation. -/
def operationLines (g : Graph) (common : List (String × List String)) (op : Operation) :
    List String :=
  block [heading 3 (op.summary.getD op.name)] ++
    block [code (op.verb.text ++ " " ++ op.path)] ++
    (match op.doc with
      | some doc => block [doc]
      | none => []) ++
    parameterLines g op.parameters ++ requestLines g op.body ++
    responsesLines g common op.responses ++ block ["---"]

/-! ## Services -/

/-- The interface that an operation is shown under; those of a namespace itself share the empty
name. -/
def groupName (op : Operation) : String := op.interface.getD ""

/-- The operations of a service by interface, in the order of first appearance. -/
def groups (s : Service) : List (String × List Operation) :=
  Keyed.groupBy groupName s.operations

/-- The title of a service: the one it has, or else the name of its namespace. -/
def serviceTitle (s : Service) : String :=
  match s.title.filter (· ≠ "") with
  | some title => title
  | none => if s.home.name = "" then "API" else s.home.name

/-- The line of a server. -/
def serverLine (s : Server) : String :=
  match s.description with
  | some description => "- " ++ code s.url ++ " - " ++ description
  | none => "- " ++ code s.url

/-- The title of a document, what the namespace says about itself, and its servers. -/
def introLines (g : Graph) (s : Service) : List String :=
  let ns := g.namespace? s.home
  let servers := (ns.map (·.servers)).getD []
  block [heading 1 (serviceTitle s ++ " API Reference")] ++
    (match ns.bind (·.doc) with
      | some doc => block [doc]
      | none => []) ++
    (if servers.isEmpty then [] else
      block [heading 2 "Server"] ++ block (servers.map serverLine))

/-- The section of a group, without a heading for the empty name. -/
def groupLines (g : Graph) (common : List (String × List String))
    (group : String × List Operation) : List String :=
  (if group.1 = "" then [] else block [heading 2 group.1]) ++
    group.2.flatMap (operationLines g common)

/-- The section of the common errors, if there are any. -/
def commonLines (common : List (String × List String)) : List String :=
  if common.isEmpty then [] else
    block [heading 2 "Common Errors"] ++
      block ["The following error responses apply to all operations in this API."] ++
      common.flatMap (·.2)

/-- The lines of the reference document of a service. -/
def serviceLines (g : Graph) (s : Service) : List String :=
  let common := commonErrors g ((groups s).flatMap (·.2))
  introLines g s ++ (groups s).flatMap (groupLines g common) ++ commonLines common

/-- The reference document of a service. -/
def serviceDocument (g : Graph) (s : Service) : String :=
  Markdown.documentText (serviceLines g s)

end ApiEmit.Reference
