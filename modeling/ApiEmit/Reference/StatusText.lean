/-
ApiEmit.Reference.StatusText — what status codes mean.

Some codes have a description of their own; the others, and ranges of codes, are
described by the class that they lie in as a whole.
-/
import ApiEmit.Schema.Http

namespace ApiEmit.Reference

/-- The codes with a description of their own. -/
def codeDescriptions : List (Nat × String) :=
  [(200, "The request has succeeded."),
    (201, "The request has succeeded and a new resource has been created as a result."),
    (202, "The request has been accepted for processing, but processing has not yet completed."),
    (204, "There is no content to send for this request, but the headers may be useful."),
    (301, "The URL of the requested resource has been changed permanently. " ++
      "The new URL is given in the response."),
    (304, "The client has made a conditional request and the resource has not been modified."),
    (400, "The server could not understand the request due to invalid syntax."),
    (401, "Access is unauthorized."),
    (403, "Access is forbidden."),
    (404, "The server cannot find the requested resource."),
    (409, "The request conflicts with the current state of the server."),
    (412, "Precondition failed."),
    (503, "Service unavailable.")]

/-- The classes of codes with their first and last codes. -/
def codeClasses : List (Nat × Nat × String) :=
  [(100, 199, "Informational"), (200, 299, "Successful"), (300, 399, "Redirection"),
    (400, 499, "Client error"), (500, 599, "Server error")]

/-- The description of a range of codes. -/
def rangeDescription? (first last : Nat) : Option String :=
  (if first = last then codeDescriptions.lookup first else none).or
    ((codeClasses.find? fun entry => entry.1 ≤ first && last ≤ entry.2.1).map (·.2.2))

/-- The description of a status. -/
def statusDescription? : StatusCode → Option String
  | .code n => rangeDescription? n n
  | .range first last => rangeDescription? first last
  | .wildcard => none

end ApiEmit.Reference
