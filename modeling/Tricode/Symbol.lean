import Tricode.Node

/-!
# Symbols and scopes

Scoping has two levels. The global scope holds the functions; each function has one scope of its
own, below the global one, for its parameters and for every variable declared anywhere in its body.

A scope keeps its symbols in the order in which they were declared, and a table its scopes in the
order in which they were opened. `SymbolTable.lookup` looks into the current scope and then into the
global one.
-/

namespace Tricode

/-- What a function takes and gives. -/
structure Signature where
  params : List Param
  result : Ty
deriving DecidableEq, Repr

/-- What a name stands for. -/
inductive Role where
  | var
  | param
  | function (signature : Signature)
  /-- A role that only symbols made by hand have. -/
  | other (name : String)
deriving DecidableEq, Repr

namespace Role

/-- A role in words. -/
def name : Role → String
  | var => "variable"
  | param => "parameter"
  | function _ => "function"
  | other name => name

/-- The role of a given name. A function of which only the name is known takes nothing and has no
result. -/
def ofName : String → Role
  | "variable" => var
  | "parameter" => param
  | "function" => function ⟨[], .absent⟩
  | name => other name

end Role

/-- A declared name. -/
structure Symbol where
  name : String
  type : Ty
  role : Role
  pos : Pos
deriving DecidableEq, Repr

/-- The signature of a symbol that is a function. -/
def Symbol.signature? (s : Symbol) : Option Signature :=
  match s.role with
  | .function signature => some signature
  | _ => none

/-- A scope: symbols with different names, in order of declaration. -/
structure Scope where
  name : String
  parent : Option String
  symbols : List Symbol
deriving DecidableEq, Repr

namespace Scope

/-- The symbol of a given name. -/
def find? (s : Scope) (name : String) : Option Symbol :=
  s.symbols.find? fun symbol => symbol.name == name

/-- Adds a symbol behind the others. -/
def insert (s : Scope) (symbol : Symbol) : Scope :=
  { s with symbols := s.symbols ++ [symbol] }

end Scope

/-- All scopes, and which of them is current. The current scope is kept by name, and there need not
be a scope of that name. -/
structure SymbolTable where
  globals : Scope
  /-- The other scopes, with different names, in order of their first opening. -/
  locals : List Scope
  current : String
deriving DecidableEq, Repr

namespace SymbolTable

/-- The name of the global scope. -/
def globalName : String := "global"

/-- A table with nothing in it but an empty global scope. -/
def empty : SymbolTable :=
  ⟨⟨globalName, none, []⟩, [], globalName⟩

/-- All scopes in order. -/
def scopes (t : SymbolTable) : List Scope :=
  t.globals :: t.locals

/-- The scope of a given name. -/
def scope? (t : SymbolTable) (name : String) : Option Scope :=
  if name == globalName then some t.globals
  else t.locals.find? fun scope => scope.name == name

/-- The current scope, if it exists. -/
def currentScope (t : SymbolTable) : Except Fault Scope :=
  match t.scope? t.current with
  | some scope => .ok scope
  | none => .error (.noScope t.current)

/-- Puts a scope into the table, in place of the scope of the same name or else behind all
others. -/
def put (t : SymbolTable) (scope : Scope) : SymbolTable :=
  if scope.name == globalName then { t with globals := scope }
  else if t.locals.any fun s => s.name == scope.name then
    { t with locals := t.locals.map fun s => if s.name == scope.name then scope else s }
  else { t with locals := t.locals ++ [scope] }

/-- Opens an empty scope below the global one. -/
def openScope (t : SymbolTable) (name : String) : SymbolTable :=
  t.put ⟨name, some globalName, []⟩

/-- Looks a name up in the current scope, then in the global one. -/
def lookup (t : SymbolTable) (name : String) : Except Fault (Option Symbol) := do
  let scope ← t.currentScope
  pure ((scope.find? name).or (t.globals.find? name))

end SymbolTable

end Tricode
