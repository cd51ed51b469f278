/-
ApiEmit.Schema.Http — HTTP methods, places of parameters and status codes.
-/

namespace ApiEmit

/-- An HTTP method. -/
inductive Verb where
  | get
  | post
  | put
  | patch
  | delete
  | head
  deriving DecidableEq, Repr

/-- The method as it stands in a request line. -/
def Verb.text : Verb → String
  | .get => "GET"
  | .post => "POST"
  | .put => "PUT"
  | .patch => "PATCH"
  | .delete => "DELETE"
  | .head => "HEAD"

/-- Where a request carries a parameter. -/
inductive ParameterLocation where
  | path
  | query
  | header
  | cookie
  deriving DecidableEq, Repr

/-- The word for a place of a parameter. -/
def ParameterLocation.text : ParameterLocation → String
  | .path => "path"
  | .query => "query"
  | .header => "header"
  | .cookie => "cookie"

/-- The status of a response: one code, an inclusive range of codes, or any other code. -/
inductive StatusCode where
  | code (n : Nat)
  | range (first last : Nat)
  | wildcard
  deriving DecidableEq, Repr

namespace StatusCode

/-- The status as text. -/
def text : StatusCode → String
  | .code n => toString n
  | .range first last => toString first ++ "-" ++ toString last
  | .wildcard => "*"

/-- Codes from 400 on report an error, and so does a response to any other code. -/
def isError : StatusCode → Bool
  | .code n => 400 ≤ n
  | .range first _ => 400 ≤ first
  | .wildcard => true

end StatusCode

end ApiEmit
