import Tricode.Token.Segment

/-!
# Scanning a source text

A `Scanner` reads a text segment by segment. It stands at a position, moves along a line with
`advance` and over a blank with `skip`, and writes down a token for every lexeme and a finding for
every stray, each at the place where it stands before it moves on. An end token closes the list.

A scan can be resumed: a second run begins where the first stopped, at the end of the text, and only
adds another end token.
-/

namespace Tricode

/-- A scan in progress: the text still to read, how many characters were read and where they end,
and what was found. -/
structure Scanner where
  rest : List Char
  offset : Nat
  pos : Pos
  tokens : Array Token
  findings : Array (Finding LexicalCause)

namespace Scanner

/-- The scan of a text before anything is read. -/
def ofSource (source : String) : Scanner :=
  ⟨source.toList, 0, Pos.start, #[], #[]⟩

/-- Moves on by `n` characters of the same line. -/
def advance (s : Scanner) (n : Nat) : Scanner :=
  { s with
    rest := s.rest.drop n
    offset := s.offset + n
    pos := ⟨s.pos.line, s.pos.column + n⟩ }

/-- Moves on over the blank `c`. A line feed opens the next line, and every other blank, a carriage
return or a tabulator too, takes one column. -/
def skip (s : Scanner) (c : Char) : Scanner :=
  if c = '\n' then
    { s with rest := s.rest.drop 1, offset := s.offset + 1, pos := ⟨s.pos.line + 1, 1⟩ }
  else s.advance 1

/-- Writes down a token that begins here. -/
def add (s : Scanner) (tag : Tag) (chars : List Char) : Scanner :=
  { s with tokens := s.tokens.push ⟨tag, String.ofList chars, s.pos⟩ }

/-- Writes down what is wrong with the character here. -/
def error (s : Scanner) (cause : LexicalCause) : Scanner :=
  { s with findings := s.findings.push ⟨cause, s.pos⟩ }

/-- Reads the segment that begins here. -/
def read (s : Scanner) : Segment → Scanner
  | .blank c => s.skip c
  | .lexeme tag chars => (s.add tag chars).advance chars.length
  | .stray cause => (s.error cause).advance 1

/-- Reads all that is left, and adds an end token. -/
def run (s : Scanner) : Scanner :=
  -- what earlier runs have written down stays
  let last := (Segment.segments s.rest).foldl read s
  { last with tokens := last.tokens.push (Token.endAt last.pos) }

/-- The states after one run, after two, and so on. -/
def runs (s : Scanner) : Nat → List Scanner
  | 0 => []
  | n + 1 => s.run :: s.run.runs n

end Scanner

/-- The tokens and the findings of a source text. -/
def scan (source : String) : List Token × List (Finding LexicalCause) :=
  let s := (Scanner.ofSource source).run
  (s.tokens.toList, s.findings.toList)

end Tricode
