import Tricode.Position

/-!
# Diagnostics

A phase of the compiler reports what it finds as *findings*: a cause, of the phase's own type,
together with the position it is reported at. A *diagnostic* is the form in which every phase's
findings are shown, with the cause put into words.
-/

namespace Tricode

/-- A cause of some phase together with the position at which it is reported. -/
structure Finding (κ : Type) where
  cause : κ
  pos : Pos
deriving DecidableEq, Repr

/-- Who reports a diagnostic. `compile` stands for no particular phase. -/
inductive Phase where
  | compile
  | lexical
  | grammar
  | semantic
deriving DecidableEq, Repr

/-- The word by which a phase is named in a diagnostic. -/
def Phase.name : Phase → String
  | compile => "Compile"
  | lexical => "Lexical"
  | grammar => "Syntax"
  | semantic => "Semantic"

/-- A reported message. -/
structure Diagnostic where
  phase : Phase
  message : String
  pos : Pos
deriving DecidableEq, Repr

/-- The line shown to the user:
`<phase> error (line <line>, column <column>): <message>`. -/
def Diagnostic.text (d : Diagnostic) : String :=
  s!"{d.phase.name} error (line {d.pos.line}, column {d.pos.column}): {d.message}"

end Tricode
