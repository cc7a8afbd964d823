import Tricode.Pass
import Tricode.Symbol
import Tricode.Typing.Cause

/-!
# Types of expressions

`infer` gives the type of an expression under a symbol table, which it does not change. Parts are
typed before the whole, from left to right; a part of type `unknown` has been reported where it
failed to resolve, and the whole is not reported on its account.
-/

namespace Tricode

/-- A pass without a state that reports findings and may come upon a misplaced node. -/
abbrev Inference := Pass Unit (Finding TypingCause) Fault

namespace Typing

/-- Reports a cause at a position. -/
def report {σ ε : Type} (cause : TypingCause) (pos : Pos) : Pass σ (Finding TypingCause) ε Unit :=
  Pass.write ⟨cause, pos⟩

/-- Reports a cause unless a condition holds. -/
def require {σ ε : Type} (holds : Bool) (cause : TypingCause) (pos : Pos) :
    Pass σ (Finding TypingCause) ε Unit :=
  if holds then pure () else report cause pos

/-! ### Operators -/

/-- The arithmetic operators. -/
def arithmeticOps : List String := ["+", "-", "*", "/"]

/-- The operators that compare for equality. -/
def equalityOps : List String := ["==", "!="]

/-- The operators that compare for order. -/
def orderOps : List String := ["<", ">", "<=", ">="]

/-- The operators on truth values. -/
def logicalOps : List String := ["&&", "||"]

/-- The type of an operation on one operand. -/
def unaryType (op : String) (t : Ty) (pos : Pos) : Inference Ty :=
  if op == "-" then do
    require (t.isNumeric || t == .unknown) (.minusOperand t) pos
    pure t
  else if op == "!" then do
    require (t == .bool || t == .unknown) (.notOperand t) pos
    pure .bool
  else do
    report (.unknownUnary op) pos
    pure .unknown

/-- The type of an operation on two operands. -/
def binaryType (op : String) (l r : Ty) (pos : Pos) : Inference Ty :=
  let unresolved := l == .unknown || r == .unknown
  if arithmeticOps.contains op then
    if unresolved then pure .unknown
    else do
      require (l.isNumeric && r.isNumeric) (.arithmeticOperands l r) pos
      pure (l.arithmetic r)
  else if equalityOps.contains op then do
    require (unresolved || l.compatible r || r.compatible l) (.equalityOperands l r) pos
    pure .bool
  else if orderOps.contains op then do
    require (unresolved || l.isNumeric && r.isNumeric) (.orderOperands l r) pos
    pure .bool
  else if logicalOps.contains op then do
    require (unresolved || l == .bool && r == .bool) (.logicalOperands l r) pos
    pure .bool
  else do
    report (.unknownBinary op) pos
    pure .unknown

/-! ### Names -/

/-- The type of a name that stands for a value. -/
def nameType (table : SymbolTable) (name : String) (pos : Pos) : Inference Ty := do
  match ← Pass.ofExcept (table.lookup name) with
  | none => do
    report (.undefinedIdentifier name) pos
    pure .unknown
  | some symbol =>
    if symbol.signature?.isSome then do
      report (.functionAsVariable name) pos
      pure .unknown
    else pure symbol.type

/-- The type of a name that is assigned to. -/
def targetType (table : SymbolTable) (name : String) (pos : Pos) : Inference Ty := do
  match ← Pass.ofExcept (table.lookup name) with
  | none => do
    report (.undefinedIdentifier name) pos
    pure .unknown
  | some symbol =>
    if symbol.signature?.isSome then do
      report (.assignToFunction name) pos
      pure .unknown
    else pure symbol.type

/-- The name and the signature of what is called at `pos`. Only a name can be called. -/
def calleeSignature (table : SymbolTable) (callee : Node) (pos : Pos) :
    Inference (Option (String × Signature)) :=
  match callee with
  | .ident name calleePos => do
    match ← Pass.ofExcept (table.lookup name) with
    | none => do
      report (.undefinedFunction name) calleePos
      pure none
    | some symbol =>
      match symbol.signature? with
      | some signature => pure (some (symbol.name, signature))
      | none => do
        report (.notAFunction name) calleePos
        pure none
  | _ => do
    report .notCallable pos
    pure none

/-- Reports the arguments, counted from `index`, whose types do not fit. Each argument is given by
its position, and with the wanted and the actual type. -/
def checkArguments (name : String) : (index : Nat) → List (Pos × Ty × Ty) → Inference Unit
  | _, [] => pure ()
  | index, (pos, expected, actual) :: rest => do
    require (expected.assignable actual) (.argumentType index name expected actual) pos
    checkArguments name (index + 1) rest

/-- The type of a call whose callee has the given signature. -/
def callType (name : String) (signature : Signature) (positions : List Pos) (types : List Ty)
    (pos : Pos) : Inference Ty := do
  let expected := signature.params.map Param.type
  if types.length != expected.length then
    report (.argumentCount name expected.length types.length) pos
  else checkArguments name 1 (positions.zip (expected.zip types))
  -- the result is what the function gives, whether the arguments fit or not
  pure signature.result

/-! ### Expressions -/

/-- The type of a literal. -/
def literalType : LiteralKind → Ty
  | .int => .int
  | .float => .float
  | .bool => .bool

mutual

/-- The type of an expression. A node that is no expression has none. -/
def infer (table : SymbolTable) : Node → Inference Ty
  | .literal kind _ _ => pure (literalType kind)
  | .ident name pos => nameType table name pos
  | .unary op e pos => do
    let t ← infer table e
    unaryType op t pos
  | .binary op l r pos => do
    let left ← infer table l
    let right ← infer table r
    binaryType op left right pos
  | .call callee args pos => do
    let target ← calleeSignature table callee pos
    -- arguments are typed also if nothing is known about what is called
    let types ← inferAll table args
    match target with
    | some (name, signature) => callType name signature (args.map Node.pos) types pos
    | none => pure .unknown
  | .assign target e pos => do
    let name ← Pass.ofExcept target.name
    let expected ← targetType table name target.pos
    let actual ← infer table e
    require (expected.assignable actual) (.cannotAssign actual expected) pos
    pure expected
  | node => Pass.fail (.untyped node.kind?)

/-- The types of expressions, from left to right. -/
def inferAll (table : SymbolTable) : List Node → Inference (List Ty)
  | [] => pure []
  | e :: es => do
    let t ← infer table e
    let ts ← inferAll table es
    pure (t :: ts)

end

end Typing

end Tricode
