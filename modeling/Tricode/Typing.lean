import Tricode.Typing.Inference

/-!
# Checking programs

The checker walks a tree once, declares what it meets, and types every expression under the symbols
declared so far. A variable is declared before its initial value is typed, so the value may mention
it.

A function that is declared a second time is reported and keeps its first symbol; its body is still
checked, in a scope of its own whose name carries a number.
-/

namespace Tricode

namespace Typing

/-- What the checker knows between two steps. -/
structure Context where
  table : SymbolTable
  /-- The result of the function whose body is being checked. -/
  returnType : Option Ty
  /-- How often each function that was declared again has been declared. -/
  declarations : List (String × Nat)

/-- The context before anything is checked. -/
def Context.empty : Context := ⟨.empty, none, []⟩

/-- A pass that checks a tree. -/
abbrev Checker := Pass Context (Finding TypingCause) Fault

/-- The type of an expression under the symbols declared so far. -/
def typeOf (e : Node) : Checker Ty := do
  let context ← Pass.get
  Pass.lift (infer context.table e)

/-- Declares a name in the current scope. A name that is taken there is reported and stays what it
is. -/
def declare (name : String) (type : Ty) (role : Role) (pos : Pos) : Checker Unit := do
  let context ← Pass.get
  let scope ← Pass.ofExcept context.table.currentScope
  if (scope.find? name).isSome then
    report (if role = .param then .parameterRedeclared name else .variableRedeclared name) pos
  else
    Pass.modify fun context =>
      { context with table := context.table.put (scope.insert ⟨name, type, role, pos⟩) }

/-- Declares parameters from left to right. -/
def declareParams : List Param → Checker Unit
  | [] => pure ()
  | p :: ps => do
    declare p.name p.type .param p.pos
    declareParams ps

/-- Declares a function in the global scope, and gives the name of the scope for its body. A name
that is taken is reported, and the scopes of its declarations from the second on are numbered. -/
def declareFunction (name : String) (signature : Signature) (pos : Pos) : Checker String := do
  let context ← Pass.get
  if (context.table.globals.find? name).isSome then do
    report (.functionRedeclared name) pos
    -- the first declaration is not counted, so the scope of the second has the number 2
    let count := (context.declarations.lookup name).getD 1 + 1
    Pass.modify fun context =>
      { context with declarations := (name, count) :: context.declarations }
    pure s!"function_{name}#{count}"
  else do
    Pass.modify fun context =>
      { context with
        table.globals :=
          context.table.globals.insert ⟨name, signature.result, .function signature, pos⟩ }
    pure s!"function_{name}"

/-- Runs `body` in a scope and with a return type; a function that was declared without one has
none. Afterwards the scope and the return type are what they were before, also when `body` fails. -/
def inFunction {α : Type} (scope : String) (result : Ty) (body : Checker α) : Checker α :=
  fun context =>
    let r := body
      { context with table.current := scope, returnType := result.given? }
    { r with
      state :=
        { r.state with table.current := context.table.current, returnType := context.returnType } }

/-- Checks a return statement against the function it stands in. -/
def checkReturn (value : Node) (pos : Pos) : Checker Unit := do
  let context ← Pass.get
  match context.returnType with
  | none => do
    report .returnOutside pos
    if value.isAbsent then pure () else discard (typeOf value)
  | some expected =>
    if value.isAbsent then require (expected == .void) (.mustReturn expected) pos
    else do
      let actual ← typeOf value
      require (expected.assignable actual) (.mustReturnGot expected actual) pos

/-- Checks that a condition is a truth value. -/
def checkCondition (cond : Node) (cause : TypingCause) : Checker Unit := do
  let t ← typeOf cond
  require (t == .bool || t == .unknown) cause cond.pos

mutual

/-- Checks a tree. What is no expression has type `void`. -/
def check : Node → Checker Ty
  | .program functions _ => do
    checkAll functions
    pure .void
  | .function result name params body pos => do
    let params ← Pass.ofExcept (params.mapM Node.asParam)
    let scope ← declareFunction name ⟨params, result⟩ pos
    -- a function whose name was taken is checked all the same, in a scope of its own
    Pass.modify fun context => { context with table := context.table.openScope scope }
    inFunction scope result do
      declareParams params
      discard (check body)
    pure .void
  | .block statements _ => do
    checkAll statements
    pure .void
  | .declare type name init pos => do
    -- the variable is in scope where its initial value is typed
    declare name type .var pos
    if init.isAbsent then pure ()
    else do
      let actual ← typeOf init
      require (type.assignable actual) (.cannotAssign actual type) pos
    pure .void
  | .conditional cond body alternative _ => do
    checkCondition cond .ifCondition
    discard (check body)
    if alternative.isAbsent then pure () else discard (check alternative)
    pure .void
  | .loop cond body _ => do
    checkCondition cond .whileCondition
    discard (check body)
    pure .void
  | .ret value pos => do
    checkReturn value pos
    pure .void
  | .expr e _ => do
    discard (typeOf e)
    pure .void
  | node => typeOf node

/-- Checks trees from left to right. -/
def checkAll : List Node → Checker Unit
  | [] => pure ()
  | n :: ns => do
    discard (check n)
    checkAll ns

end

end Typing

/-- What the checker makes of a program. -/
structure Analysis where
  table : SymbolTable
  findings : List (Finding TypingCause)
  /-- The fault that stopped the checker, if one did. -/
  fault : Option Fault

/-- Checks a program. -/
def analyze (program : Program) : Analysis :=
  let r := Typing.check program.toNode .empty
  { table := r.state.table
    findings := r.log
    fault := match r.value with
      | .ok _ => none
      | .error f => some f }

end Tricode
