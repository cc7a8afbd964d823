import Tricode.Diagnostic
import Tricode.Token

/-!
# JSON values

The form in which results are handed to other programs, and in which the compile service receives
its input. Fields of an object are kept in order.
-/

namespace Tricode

/-- A JSON value. A number that is no integer keeps its spelling. -/
inductive Json where
  | null
  | bool (b : Bool)
  | int (n : Int)
  | real (literal : String)
  | text (s : String)
  | list (items : List Json)
  | object (fields : List (String × Json))

namespace Json

/-- A text, or null where there is none. -/
def optionalText : Option String → Json
  | some s => text s
  | none => null

/-- A list of texts. -/
def texts (items : List String) : Json :=
  list (items.map text)

/-- The last field of a given name, if the value is an object. -/
def field? (name : String) : Json → Option Json
  | object fields => (fields.reverse.find? fun (n, _) => n == name).map Prod.snd
  | _ => none

end Json

/-- The two fields of a position. -/
def Pos.jsonFields (p : Pos) : List (String × Json) :=
  [("line", .int p.line), ("column", .int p.column)]

/-- A diagnostic as an object. -/
def Diagnostic.toJson (d : Diagnostic) : Json :=
  .object ([("message", .text d.message)] ++ d.pos.jsonFields ++ [("phase", .text d.phase.name)])

/-- A token as an object. -/
def Token.toJson (t : Token) : Json :=
  .object ([("type", .text t.tag.name), ("value", .text t.text)] ++ t.pos.jsonFields)

end Tricode
