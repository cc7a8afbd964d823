import Tricode.Diagnostic
import Tricode.Ty

/-!
# What the checker reports
-/

namespace Tricode

/-- Why the checker complains. -/
inductive TypingCause where
  | functionRedeclared (name : String)
  | parameterRedeclared (name : String)
  | variableRedeclared (name : String)
  | cannotAssign (actual expected : Ty)
  | ifCondition
  | whileCondition
  | returnOutside
  | mustReturn (expected : Ty)
  | mustReturnGot (expected actual : Ty)
  | undefinedIdentifier (name : String)
  | functionAsVariable (name : String)
  | minusOperand (actual : Ty)
  | notOperand (actual : Ty)
  | unknownUnary (op : String)
  | arithmeticOperands (left right : Ty)
  | equalityOperands (left right : Ty)
  | orderOperands (left right : Ty)
  | logicalOperands (left right : Ty)
  | unknownBinary (op : String)
  | notCallable
  | undefinedFunction (name : String)
  | notAFunction (name : String)
  | argumentCount (name : String) (expected actual : Nat)
  /-- Arguments are counted from 1. -/
  | argumentType (index : Nat) (name : String) (expected actual : Ty)
  | assignToFunction (name : String)
  /-- The program is nested more deeply than a later phase can go. -/
  | nestedTooDeeply
deriving DecidableEq, Repr

/-- The cause in words. -/
def TypingCause.message : TypingCause → String
  | functionRedeclared name => s!"Function '{name}' already declared"
  | parameterRedeclared name => s!"Parameter '{name}' already declared"
  | variableRedeclared name => s!"Variable '{name}' already declared in this scope"
  | cannotAssign actual expected => s!"Cannot assign {actual.name} to {expected.name}"
  | ifCondition => "If condition must be boolean"
  | whileCondition => "While condition must be boolean"
  | returnOutside => "Return statement outside function"
  | mustReturn expected => s!"Function must return {expected.name}"
  | mustReturnGot expected actual => s!"Function must return {expected.name}, got {actual.name}"
  | undefinedIdentifier name => s!"Undefined identifier: {name}"
  | functionAsVariable name => s!"'{name}' is a function, not a variable"
  | minusOperand actual => s!"Unary minus requires numeric type, got {actual.name}"
  | notOperand actual => s!"Logical not requires boolean type, got {actual.name}"
  | unknownUnary op => s!"Unknown unary operator: {op}"
  | arithmeticOperands left right =>
    s!"Arithmetic operation requires numeric types, got {left.name} and {right.name}"
  | equalityOperands left right =>
    s!"Comparison requires compatible types, got {left.name} and {right.name}"
  | orderOperands left right =>
    s!"Comparison requires numeric types, got {left.name} and {right.name}"
  | logicalOperands left right =>
    s!"Logical operation requires boolean types, got {left.name} and {right.name}"
  | unknownBinary op => s!"Unknown binary operator: {op}"
  | notCallable => "Can only call functions"
  | undefinedFunction name => s!"Undefined function: {name}"
  | notAFunction name => s!"'{name}' is not a function"
  | argumentCount name expected actual =>
    s!"Function '{name}' expects {expected} arguments, got {actual}"
  | argumentType index name expected actual =>
    s!"Argument {index} to '{name}' must be {expected.name}, got {actual.name}"
  | assignToFunction name => s!"Cannot assign to function '{name}'"
  | nestedTooDeeply => "Program nested too deeply"

/-- A checker's finding as it is shown. -/
def Diagnostic.ofTyping (f : Finding TypingCause) : Diagnostic :=
  ⟨.semantic, f.cause.message, f.pos⟩

end Tricode
