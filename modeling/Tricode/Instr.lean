/-!
# Three-address code

An instruction works on operands that are kept as they are written: a literal, a variable, or a
temporary. Temporaries and labels are numbered, and are written `t0`, `t1`, … and `L0`, `L1`, ….
-/

namespace Tricode

/-- The name of a temporary. -/
def tempName (n : Nat) : String := s!"t{n}"

/-- The name of a label. -/
def labelName (n : Nat) : String := s!"L{n}"

/-- An instruction of three-address code. -/
inductive Instr where
  | functionStart (name : String)
  | functionEnd (name : String)
  | copy (dest value : String)
  | declare (name : String)
  | jumpUnless (cond : String) (target : Nat)
  | jump (target : Nat)
  | label (n : Nat)
  | ret (value : Option String)
  | param (value : String)
  | binary (dest : Nat) (left op right : String)
  | unary (dest : Nat) (op operand : String)
  | call (dest : Nat) (callee : String) (count : Nat)
  /-- A line given as text. -/
  | verbatim (line : String)
deriving DecidableEq, Repr

/-- The line of an instruction. -/
def Instr.line : Instr → String
  | functionStart name => s!"FUNCTION {name}:"
  | functionEnd name => s!"END_FUNCTION {name}"
  | copy dest value => s!"{dest} = {value}"
  | declare name => s!"DECLARE {name}"
  | jumpUnless cond target => s!"IF_FALSE {cond} GOTO {labelName target}"
  | jump target => s!"GOTO {labelName target}"
  | label n => s!"{labelName n}:"
  | ret (some value) => s!"RETURN {value}"
  | ret none => "RETURN"
  | param value => s!"PARAM {value}"
  | binary dest left op right => s!"{tempName dest} = {left} {op} {right}"
  | unary dest op operand => s!"{tempName dest} = {op}{operand}"
  | call dest callee count => s!"{tempName dest} = CALL {callee}, {count}"
  | verbatim line => line

end Tricode
