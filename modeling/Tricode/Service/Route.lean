import Tricode.Service.Target

/-!
# Routes

A route is found by the path of a target. `resolve` says what becomes of a request before the route
itself is asked for an answer: there may be no such path, the route may not take the method or not
serve web sockets, and a path that names a route only when its runs of slashes are made single ones
has moved there.
-/

namespace Tricode.Service

/-- The routes of the service. -/
inductive Route where
  | health
  | compile
  /-- A file to be handed out. -/
  | file
deriving DecidableEq, Repr

namespace Route

/-- Whether a path below the files names one: it is not empty, does not begin with a slash, and has
no line feed behind its first character. -/
def isFileName : List Char → Bool
  | [] => false
  | c :: cs => c != '/' && !cs.contains '\n'

/-- Where the files are. -/
def filesPath : List Char := "/static/".toList

/-- The route of a path. -/
def ofPath? (path : List Char) : Option Route :=
  if path = "/health".toList then some .health
  else if path = "/compile".toList then some .compile
  else if filesPath.isPrefixOf path && isFileName (path.drop filesPath.length) then some .file
  else none

/-- The methods that a route takes. -/
def methods : Route → List String
  | health => ["GET", "HEAD", "OPTIONS"]
  | compile => ["POST", "OPTIONS"]
  | file => ["GET", "HEAD", "OPTIONS"]

end Route

/-- A path in which each run of slashes has become one slash. -/
def mergeSlashes : List Char → List Char
  | [] => []
  | c :: cs => if c = '/' ∧ cs.head? = some '/' then mergeSlashes cs else c :: mergeSlashes cs

/-- What becomes of a request. -/
inductive Resolution where
  | notFound
  | methodNotAllowed
  | noSocket
  | moved
  | found (route : Route)
deriving DecidableEq, Repr

/-- What becomes of a request for a target with a method. -/
def resolve (target : Target) (method : String) : Resolution :=
  let direct := Route.ofPath? target.path
  match direct.or (Route.ofPath? (mergeSlashes target.path)) with
  | none => .notFound
  | some route =>
    if !route.methods.contains method then .methodNotAllowed
    else if target.isSocket then .noSocket
    else if direct.isNone then .moved
    else .found route

end Tricode.Service
