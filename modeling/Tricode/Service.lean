import Tricode.Compilation
import Tricode.Text.Utf8

/-!
# The compile service

The health view says that the service is there; the compile view takes a JSON object with the source
text in its field `code`, and answers with all that the compiler found.

The service runs inside a web framework (`Service.Framework`). The framework decides which view is
asked, reads the body of a request as JSON and limits its length, and sends the answer. All of this
is given here: the service is the same for every framework. `Service.Framework.plain` is one to run
it with.
-/

namespace Tricode.Service

/-- A request. -/
structure Request where
  method : String
  target : String
  contentType : Option String
  body : Text.Bytes

/-- The answer of a view. Without a body of its own it has none that matters. -/
structure Answer where
  status : Nat
  body : Option Json

/-- An answer as it is sent. -/
structure Response extends Answer where
  /-- Who may read the answer. -/
  allowOrigin : String

/-- The views of the service. -/
inductive View where
  | health
  | compile
deriving DecidableEq, Repr

/-! ### The framework -/

/-- Who answers a request. -/
inductive Dispatch where
  | view (v : View)
  /-- The framework does so itself, with this status. -/
  | status (code : Nat)
deriving DecidableEq, Repr

/-- What a view gets when it asks for the body of a request as JSON. -/
inductive Content where
  | value (v : Json)
  /-- The body is not meant to be JSON, or is not well formed. -/
  | nothing
  /-- The body is longer than the limit. -/
  | tooLong
  /-- Reading the body ended in a failure that no view deals with. -/
  | failed

/-- What a web framework does around the views. -/
structure Framework where
  /-- The longest body that is read. -/
  limit : Nat
  /-- Finds who answers a request. -/
  dispatch : Request → Dispatch
  /-- Reads the body of a request. -/
  content : Request → Content
  /-- Sends an answer to a request. -/
  send : Request → Answer → Response

/-! ### Views -/

/-- The answer of a compilation that did not take place. -/
def withoutResult (error : String) : Json :=
  .object
    [("tokens", .list []), ("lexicalErrors", .list []), ("ast", .null), ("parseErrors", .list []),
     ("symbolTable", .null), ("semanticErrors", .list []), ("instructions", .list []),
     ("errors", .texts [error])]

/-- The answer to a body that is longer than the limit. -/
def tooLong (limit : Nat) : Answer :=
  ⟨413, some (withoutResult s!"Request body exceeds {limit} bytes")⟩

/-- The answer to a body without a source text. -/
def noSource : Answer :=
  ⟨400, some (withoutResult "Request body must be JSON with a string 'code' field")⟩

/-- The source text in the body of a request. -/
def sourceOf (value : Json) : Option String :=
  match value.field? "code" with
  | some (.text source) => some source
  | _ => none

/-- The answer to a source text. If `crash` is given, the compiler breaks down with that message. -/
def compileAnswer (crash : Option String) (source : String) : Answer :=
  match crash with
  | some message => ⟨500, some (withoutResult s!"Unexpected error: {message}")⟩
  | none =>
    let c := compile ⟨false, none⟩ source
    let errors := Json.texts (c.diagnostics.map Diagnostic.text)
    ⟨200, some (.object (c.jsonFields ++ [("errors", errors)]))⟩

/-- The answer to the content of a request for a compilation. -/
def compileContent (limit : Nat) (crash : Option String) : Content → Answer
  | .value value => (sourceOf value).elim noSource (compileAnswer crash)
  | .nothing => noSource
  | .tooLong => tooLong limit
  | .failed => ⟨500, none⟩

namespace Framework

/-- The answer of a view to a request. -/
def answer (w : Framework) (crash : Option String) (r : Request) : View → Answer
  | .health => ⟨200, some (.object [("status", .text "ok")])⟩
  | .compile => compileContent w.limit crash (w.content r)

/-- The response to a request. -/
def handle (w : Framework) (crash : Option String) (r : Request) : Response :=
  w.send r <|
    match w.dispatch r with
    | .view v => w.answer crash r v
    | .status code => ⟨code, none⟩

end Framework

end Tricode.Service
