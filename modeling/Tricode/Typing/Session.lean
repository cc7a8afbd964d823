import Tricode.Typing

/-!
# Checker sessions

A session asks for single steps of the checker, one after the other on the same context. What a call
declares stays declared for the calls behind it, also when the call fails.
-/

namespace Tricode

namespace Typing

/-- What a session can be asked for. -/
inductive Call where
  /-- Check a tree and show all symbols. -/
  | analyze (n : Node)
  | check (n : Node)
  | infer (n : Node)
  | declare (name : String) (type : Ty) (role : Role) (pos : Pos)
  | lookup (name : String)
  | openScope (name : String)
  | enter (name : String)
  | setReturnType (type : Option Ty)
  | assignable (expected actual : Ty)
  | table
  | listing

/-- What a call gives. -/
inductive Answer where
  | type (t : Ty)
  | symbol (s : Option Symbol)
  | truth (b : Bool)
  | table (t : SymbolTable)
  /-- The symbols, to be shown as lines. -/
  | listing (t : SymbolTable)
  | nothing

/-- The pass that a call asks for. -/
def Call.pass : Call → Checker Answer
  | analyze n => do
    discard (Typing.check n)
    let context ← Pass.get
    pure (.table context.table)
  | check n => do
    let t ← Typing.check n
    pure (.type t)
  | infer n => do
    let t ← typeOf n
    pure (.type t)
  | declare name type role pos => do
    Typing.declare name type role pos
    pure .nothing
  | lookup name => do
    let context ← Pass.get
    let symbol ← Pass.ofExcept (context.table.lookup name)
    pure (.symbol symbol)
  | openScope name => do
    Pass.modify fun context => { context with table := context.table.openScope name }
    pure .nothing
  | enter name => do
    Pass.modify fun context => { context with table.current := name }
    pure .nothing
  | setReturnType type => do
    Pass.modify fun context => { context with returnType := type }
    pure .nothing
  | assignable expected actual => pure (.truth (expected.assignable actual))
  | table => do
    let context ← Pass.get
    pure (.table context.table)
  | listing => do
    let context ← Pass.get
    pure (.listing context.table)

/-- A checker between two calls: what it knows, and everything that has been reported. -/
structure Session where
  context : Context
  findings : List (Finding TypingCause)

namespace Session

/-- A session before anything is checked. -/
def empty : Session := ⟨.empty, []⟩

/-- Makes a call: its answer, and the session behind it. -/
def call (s : Session) (c : Call) : Except Fault Answer × Session :=
  let r := c.pass s.context
  (r.value, ⟨r.state, s.findings ++ r.log⟩)

end Session

end Typing

end Tricode
