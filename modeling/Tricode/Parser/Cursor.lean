import Tricode.Parser

/-!
# Counting levels of nesting

A cursor is the state of a parser that counts. It holds the tokens that are left and the number of
constructs that stand around the next one. On the way into a construct the counter goes up, and
there it is held against `Parser.maxNesting`; on the way out it goes down again, whether the
construct was parsed or not (`Cursor.counted`).

Parsers call each other, so each level of nesting takes a part of the stack that they run on. A
parser for what stands inside that is missing here means that the stack ends before the limit is
reached. This is a failure of its own (`Failure.overflow`): nothing is reported, and recovery does
not deal with it.
-/

namespace Tricode

namespace Parser

variable {ε α : Type}

/-- What a parser fails with that may run out of stack. -/
inductive Failure (ε : Type) where
  | cause (e : ε)
  /-- The stack does not hold another level. -/
  | overflow

/-- The state of a parser that counts levels. -/
structure Cursor where
  /-- What is left of the tokens. -/
  rest : List Token
  /-- How many constructs stand around the next token. -/
  nesting : Int

namespace Cursor

/-- Counts one level more on the way in and one less on the way out, however the pass ends. -/
def counted (p : Reading Cursor ε α) : Reading Cursor ε α := fun c =>
  let r := p { c with nesting := c.nesting + 1 }
  { r with state := { r.state with nesting := r.state.nesting - 1 } }

end Cursor

instance : Source Cursor where
  left := Cursor.rest
  moved f c := { c with rest := f c.rest }

/-- The counter is held against the limit before anything inside the construct is parsed. -/
instance : Setting Cursor (Failure GrammarCause) (Failure Empty) where
  failure := .cause
  fatal
    | .cause _ => none
    | .overflow => some .overflow
  raise
    | .cause e => e.elim
    | .overflow => .overflow
  nested what inner opening body := Cursor.counted fun c =>
    -- the construct itself has been counted, so the level with the number `maxNesting` is allowed
    if (maxNesting : Int) < c.nesting then
      failWith (.cause (.nestedTooDeeply what)) (.nestedTooDeeply what) opening c
    else
      match inner with
      | some p => body p c
      | none => Pass.fail .overflow c

end Parser

end Tricode
