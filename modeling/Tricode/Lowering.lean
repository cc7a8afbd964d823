import Tricode.Instr
import Tricode.Node
import Tricode.Pass

/-!
# Lowering trees to three-address code

Lowering logs the instructions it emits and keeps two counters, for temporaries and for labels,
which only grow. An expression is lowered to an operand that holds its value: a literal or a name
stands for itself, an operation or a call gets a fresh temporary, and an assignment is held by its
target.
-/

namespace Tricode

namespace Lowering

/-- How many temporaries and labels are in use. -/
structure Counters where
  temps : Nat
  labels : Nat
deriving DecidableEq, Repr

end Lowering

/-- A pass that emits instructions. -/
abbrev Lowering := Pass Lowering.Counters Instr Fault

namespace Lowering

/-- Nothing is in use. -/
def Counters.zero : Counters := ⟨0, 0⟩

/-- Emits an instruction. -/
def emit (i : Instr) : Lowering Unit := Pass.write i

/-- A temporary that is not in use. -/
def newTemp : Lowering Nat := fun c => ⟨.ok c.temps, [], { c with temps := c.temps + 1 }⟩

/-- A label that is not in use. -/
def newLabel : Lowering Nat := fun c => ⟨.ok c.labels, [], { c with labels := c.labels + 1 }⟩

/-- Passes arguments from left to right. -/
def emitParams : List String → Lowering Unit
  | [] => pure ()
  | a :: as => do
    emit (.param a)
    emitParams as

mutual

/-- Lowers an expression; gives the operand that holds its value. The name of what is called is
looked at last, behind the arguments and with the temporary already taken. -/
def lowerExpr : Node → Lowering String
  | .literal _ text _ => pure text
  | .ident name _ => pure name
  | .unary op e _ => do
    let operand ← lowerExpr e
    let dest ← newTemp
    emit (.unary dest op operand)
    pure (tempName dest)
  | .binary op l r _ => do
    let left ← lowerExpr l
    let right ← lowerExpr r
    let dest ← newTemp
    emit (.binary dest left op right)
    pure (tempName dest)
  | .call callee args _ => do
    let operands ← lowerArgs args
    emitParams operands
    let dest ← newTemp
    let name ← Pass.ofExcept callee.name
    emit (.call dest name operands.length)
    pure (tempName dest)
  | .assign target e _ => do
    let value ← lowerExpr e
    let name ← Pass.ofExcept target.name
    emit (.copy name value)
    pure name
  | node => Pass.fail (.unlowered node.kind?)

/-- Lowers expressions from left to right. -/
def lowerArgs : List Node → Lowering (List String)
  | [] => pure []
  | e :: es => do
    let operand ← lowerExpr e
    let operands ← lowerArgs es
    pure (operand :: operands)

end

mutual

/-- Lowers a statement, a function or a program. -/
def lower : Node → Lowering Unit
  | .program functions _ => lowerAll functions
  | .function _ name _ body _ => do
    emit (.functionStart name)
    lower body
    emit (.functionEnd name)
  | .block statements _ => lowerAll statements
  | .declare _ name init _ =>
    if init.isAbsent then emit (.declare name)
    else do
      let value ← lowerExpr init
      emit (.copy name value)
  | .conditional cond body alternative _ => do
    let cond ← lowerExpr cond
    if alternative.isAbsent then do
      -- without an alternative, one label is enough
      let done ← newLabel
      emit (.jumpUnless cond done)
      lower body
      emit (.label done)
    else do
      let otherwise ← newLabel
      let done ← newLabel
      emit (.jumpUnless cond otherwise)
      lower body
      emit (.jump done)
      emit (.label otherwise)
      lower alternative
      emit (.label done)
  | .loop cond body _ => do
    -- both labels are taken before the condition is lowered, unlike those of a conditional
    let again ← newLabel
    let done ← newLabel
    emit (.label again)
    let cond ← lowerExpr cond
    emit (.jumpUnless cond done)
    lower body
    emit (.jump again)
    emit (.label done)
  | .ret value _ =>
    if value.isAbsent then emit (.ret none)
    else do
      let value ← lowerExpr value
      emit (.ret (some value))
  | .expr e _ => discard (lowerExpr e)
  | node => Pass.fail (.unlowered node.kind?)

/-- Lowers trees from left to right. -/
def lowerAll : List Node → Lowering Unit
  | [] => pure ()
  | n :: ns => do
    lower n
    lowerAll ns

end

end Lowering

/-- The code of a program, or the fault that kept it from being lowered. -/
def generate (program : Program) : Except Fault (List Instr) :=
  let r := Lowering.lower program.toNode .zero
  r.value.map fun _ => r.log

end Tricode
