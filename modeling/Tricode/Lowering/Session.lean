import Tricode.Lowering

/-!
# Lowering sessions

A session asks for single steps of lowering, one after the other. The code emitted so far and the
counters go from call to call, also past a call that fails.
-/

namespace Tricode

namespace Lowering

/-- What a session can be asked for. -/
inductive Call where
  /-- Start afresh, lower a program and show its code. -/
  | generate (n : Node)
  | lower (n : Node)
  | lowerExpr (n : Node)
  | newTemp
  | newLabel
  | emit (line : String)

/-- What a call gives. -/
inductive Answer where
  | text (s : String)
  | code (is : List Instr)
  | nothing

/-- The code emitted so far, and the counters. -/
structure Session where
  code : List Instr
  counters : Counters

namespace Session

/-- A session before anything is emitted. -/
def empty : Session := ⟨[], .zero⟩

/-- Runs a pass, and puts what it emits behind the code emitted so far. -/
def run {α : Type} (s : Session) (m : Lowering α) : Except Fault α × Session :=
  let r := m s.counters
  (r.value, ⟨s.code ++ r.log, r.state⟩)

/-- Makes a call: its answer, and the session behind it. -/
def call (s : Session) : Call → Except Fault Answer × Session
  | .generate n =>
    let (value, s') := empty.run (Lowering.lower n)
    (value.map fun _ => .code s'.code, s')
  | .lower n => s.run do
    Lowering.lower n
    pure .nothing
  | .lowerExpr n => s.run do
    let operand ← Lowering.lowerExpr n
    pure (.text operand)
  | .newTemp => s.run do
    let n ← Lowering.newTemp
    pure (.text (tempName n))
  | .newLabel => s.run do
    let n ← Lowering.newLabel
    pure (.text (labelName n))
  | .emit line => s.run do
    Lowering.emit (.verbatim line)
    pure .nothing

end Session

end Lowering

end Tricode
