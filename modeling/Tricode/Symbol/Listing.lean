import Tricode.Json
import Tricode.Symbol

/-!
# Showing a symbol table

As lines for a reader, and as an object for another program.
-/

namespace Tricode

/-- A text filled up with blanks on the right to a width counted in characters. -/
def padded (width : Nat) (s : String) : String :=
  s ++ String.ofList (List.replicate (width - s.length) ' ')

/-- A type in an object: the type that is absent is null. -/
def Ty.toJson : Ty → Json
  | absent => .null
  | t => .text t.name

/-- A parameter as the symbol it declares. -/
def Param.symbol (p : Param) : Symbol :=
  ⟨p.name, p.type, .param, p.pos⟩

namespace Symbol

/-- The line of a symbol: name, role and type in columns, and for a function the types of its
parameters. -/
def line (s : Symbol) : String :=
  let params := s.signature?.elim "" fun signature =>
    " (" ++ ", ".intercalate (signature.params.map fun p => p.type.name) ++ ")"
  s!"  {padded 12 s.name} {padded 10 s.role.name} {s.type.name}{params}"

/-- The fields that every symbol has. -/
def jsonFields (s : Symbol) : List (String × Json) :=
  [("name", .text s.name), ("type", s.type.toJson), ("kind", .text s.role.name)] ++ s.pos.jsonFields

/-- A symbol as an object. A function also has its parameters and its result. -/
def toJson (s : Symbol) : Json :=
  .object (s.jsonFields ++ s.signature?.elim [] fun signature =>
    [("parameters", .list (signature.params.map fun p => .object p.symbol.jsonFields)),
     ("returnType", signature.result.toJson)])

end Symbol

namespace Scope

/-- The lines of a scope: its name, with its parent if it has one, and its symbols. -/
def lines (s : Scope) : List String :=
  let parent := s.parent.elim "" fun p => s!" (parent: {p})"
  s!"[{s.name}]{parent}" :: s.symbols.map Symbol.line

/-- A scope as an object. -/
def toJson (s : Scope) : Json :=
  .object
    [("name", .text s.name),
     ("symbols", .object (s.symbols.map fun symbol => (symbol.name, symbol.toJson))),
     ("parent", .optionalText s.parent)]

end Scope

namespace SymbolTable

/-- The lines of a table, scope by scope. -/
def lines (t : SymbolTable) : List String :=
  t.scopes.flatMap Scope.lines

/-- A table as an object. -/
def toJson (t : SymbolTable) : Json :=
  .object
    [("scopes", .object (t.scopes.map fun scope => (scope.name, scope.toJson))),
     ("currentScope", .text t.current)]

end SymbolTable

end Tricode
