import Tricode.Json.Reader
import Tricode.Service
import Tricode.Service.Route
import Tricode.Text.Upper

/-!
# A framework to run the service with

`/health` and `/compile` are the paths of the views. Below `/static/` there is a place for files to
be handed out, which is empty. Every answer may be read from any origin. A body may nest as deeply
as it is long, so reading one never fails.
-/

namespace Tricode.Service

/-! ### Media types -/

/-- The media type of a content type: without its parameters and the blanks around it, in lower
case. -/
def mediaType (contentType : String) : List Char :=
  let isBlank (c : Char) : Bool := c == ' ' || c == '\t'
  let name := contentType.toList.takeWhile (· != ';')
  (((name.dropWhile isBlank).reverse.dropWhile isBlank).reverse).map Char.toLower

/-- Whether a body of this type is to be read as JSON. -/
def isJson (contentType : Option String) : Bool :=
  contentType.any fun t =>
    let m := mediaType t
    m == "application/json".toList
      || ("application/".toList.isPrefixOf m && "+json".toList.isSuffixOf m)

namespace Framework

/-- Finds who answers a request, by its target and its method in upper case. No file is there to be
handed out. -/
def plainDispatch (r : Request) : Dispatch :=
  let method := Text.upper r.method
  match resolve (.ofText r.target) method with
  | .notFound => .status 404
  | .methodNotAllowed => .status 405
  | .noSocket => .status 400
  | .moved => .status 308
  | .found route =>
    if method = "OPTIONS" then .status 200
    else
      match route with
      | .health => .view .health
      | .compile => .view .compile
      | .file => .status 404

/-- Reads a body. One that is not JSON is not even measured. -/
def plainContent (limit : Nat) (r : Request) : Content :=
  if isJson r.contentType then
    if r.body.length > limit then .tooLong else (Json.ofBytes? r.body).elim .nothing .value
  else .nothing

/-- Routes take their methods in upper and in lower case, but only to a method that is written
`HEAD` is the body of the answer left out. -/
def plain (limit : Nat) : Framework where
  limit := limit
  dispatch := plainDispatch
  content := plainContent limit
  send r a := ⟨⟨a.status, if r.method = "HEAD" then none else a.body⟩, "*"⟩

end Framework

/-- The limit that holds unless another one is set. -/
def defaultLimit : Nat := 262144

end Tricode.Service
