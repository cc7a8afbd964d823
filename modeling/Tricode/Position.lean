/-!
# Positions in a source text

A position is a line and a column, both counted from 1 in a scanned text. Positions are integers
without bounds: a tree or a token made by hand may carry any line and column, zero and negative ones
included.

`Pos.after` gives the position behind a piece of text, and `Pos.after_append` says that reading two
pieces in turn is reading their concatenation.
-/

namespace Tricode

/-- A place in a source text. -/
structure Pos where
  line : Int
  column : Int
deriving DecidableEq, Repr, Inhabited

namespace Pos

/-- The first position of a source text. -/
def start : Pos := ⟨1, 1⟩

/-- The position behind one character: a line feed opens the next line, and every other character,
a carriage return or a tabulator too, takes one column. -/
def step (p : Pos) (c : Char) : Pos :=
  if c = '\n' then ⟨p.line + 1, 1⟩ else ⟨p.line, p.column + 1⟩

/-- The position behind a piece of text that starts at `p`. -/
def after (p : Pos) (text : List Char) : Pos :=
  text.foldl step p

@[simp] theorem after_nil (p : Pos) : p.after [] = p := rfl

@[simp] theorem after_cons (p : Pos) (c : Char) (text : List Char) :
    p.after (c :: text) = (p.step c).after text := rfl

/-- `Pos.after` two pieces of text in turn is `Pos.after` their concatenation. -/
theorem after_append (p : Pos) (a b : List Char) : p.after (a ++ b) = (p.after a).after b :=
  List.foldl_append

end Pos

end Tricode
