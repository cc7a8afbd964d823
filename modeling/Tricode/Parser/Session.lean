import Tricode.Node
import Tricode.Parser.Cursor
import Tricode.Program.Parser

/-!
# Parser sessions

A session asks for single steps of a parser, one after the other on the same tokens: a look at the
next token, a statement, an operator level. Each call begins where the one before it stopped, also
where that one failed.

A session parses with a counter of nesting levels, which can start anywhere, also below zero. How
many levels the stack holds is up to the place where the parser runs: `Session.callWithin` makes a
call on a given stack, and `Session.call` on one that holds all the levels below the limit.
-/

namespace Tricode

namespace Parser

/-- A parser between two calls. -/
structure Session where
  tokens : List Token
  /-- What is left of the tokens. -/
  rest : List Token
  /-- How many constructs already stand around what is parsed. -/
  nesting : Int
  /-- Everything that has been reported. -/
  findings : List (Finding GrammarCause)

/-- What a session can be asked for. -/
inductive Call where
  | peek
  | previous
  | atEnd
  | advance
  | check (tag : Tag)
  | checkKeyword (words : List String)
  | accept (tags : List Tag)
  | expect (tag : Tag) (message : String)
  | expectKeyword (words : List String) (message : String)
  | synchronize
  | program
  | function
  | parameters
  | block
  | statement
  | expression
  | assignment
  /-- The binary operators, without the given number of loosest levels. -/
  | binary (above : Nat)
  | unary
  | call
  | primary

/-- What a call gives. -/
inductive Answer where
  | token (t : Token)
  | truth (b : Bool)
  | nothing
  | node (n : Node)
  | nodes (ns : List Node)

/-- Why a call gives nothing. -/
inductive Refusal where
  /-- The parser failed, with the cause reported last. -/
  | failed (cause : GrammarCause)
  /-- There is no token at all to look back on. -/
  | noToken
  /-- The stack was used up. -/
  | overflow

/-- The refusal for a failure, given the one for a cause. -/
def Failure.refusal {ε : Type} (refuse : ε → Refusal) : Failure ε → Refusal
  | .cause e => refuse e
  | .overflow => .overflow

namespace Session

/-- A session at the first token. -/
def start (tokens : List Token) (nesting : Int) : Session :=
  ⟨tokens, tokens, nesting, []⟩

/-- The number of tokens read. -/
def position (s : Session) : Nat :=
  s.tokens.length - s.rest.length

/-- How many more levels of nesting there are below the limit. -/
def room (s : Session) : Nat :=
  (maxNesting - s.nesting).toNat

/-- The token before the next one. Before the first token comes the last. -/
def previous? (s : Session) : Option Token :=
  if s.position = 0 then s.tokens.getLast? else s.tokens[s.position - 1]?

/-- The token before the next one as an answer. -/
def answerPrevious (s : Session) : Except Refusal Answer :=
  match s.previous? with
  | some t => .ok (.token t)
  | none => .error .noToken

/-- The state in which a call begins. -/
def cursor (s : Session) : Cursor :=
  ⟨s.rest, s.nesting⟩

/-- The session behind a reader that was run from where the session stood. -/
def after {ε α : Type} (s : Session) (r : Outcome Cursor (Finding GrammarCause) ε α) : Session :=
  { s with rest := r.state.rest, nesting := r.state.nesting, findings := s.findings ++ r.log }

/-- Runs a reader from where the session stands. -/
def runWith {ε α : Type} (s : Session) (refuse : ε → Refusal) (p : Reading Cursor (Failure ε) α)
    (answer : α → Answer) : Except Refusal Answer × Session :=
  let r := p s.cursor
  ((r.value.map answer).mapError (Failure.refusal refuse), s.after r)

/-- A run of `p` in a `Session`, by its `Outcome` on the `Cursor` of the session. -/
theorem runWith_eq {ε α : Type} {s : Session} {p : Reading Cursor (Failure ε) α}
    {r : Outcome Cursor (Finding GrammarCause) (Failure ε) α} (h : p s.cursor = r)
    (refuse : ε → Refusal) (answer : α → Answer) :
    s.runWith refuse p answer =
      ((r.value.map answer).mapError (Failure.refusal refuse), s.after r) := by
  rw [runWith, h]

/-- Runs a parser from where the session stands. -/
def run {α : Type} (s : Session) (p : Reading Cursor (Failure GrammarCause) α)
    (answer : α → Answer) : Except Refusal Answer × Session :=
  s.runWith .failed p answer

/-- Runs a parser for expressions. -/
def runExpr (s : Session) (p : Reading Cursor (Failure GrammarCause) Measured) :
    Except Refusal Answer × Session :=
  s.run p fun e => .node e.expr.toNode

/-- Makes a call on a stack that holds this number of levels: its answer, and the session behind
it. -/
def callWithin (s : Session) (stack : Nat) : Call → Except Refusal Answer × Session
  | .peek => s.run Parser.peek .token
  | .previous => (s.answerPrevious, s)
  | .atEnd => s.run Parser.atEnd .truth
  | .advance =>
    let s' := if (next s.rest).isEnd then s else { s with rest := s.rest.tail }
    (s'.answerPrevious, s')
  | .check tag => s.run (Parser.check tag) .truth
  | .checkKeyword words => s.run (Parser.checkKeyword words) .truth
  | .accept tags => s.run (Parser.accept tags) fun t => .truth t.isSome
  | .expect tag message => s.run (Parser.expect tag (.custom message)) .token
  | .expectKeyword words message => s.run (Parser.expectKeyword words (.custom message)) .token
  | .synchronize =>
    if s.tokens.isEmpty then (.error .noToken, s)
    else s.run Parser.synchronize fun _ => .nothing
  | .program => s.runWith Empty.elim (Parser.program stack) fun p => .node p.toNode
  | .function => s.run (Parser.function stack) fun f => .node f.toNode
  | .parameters => s.run Parser.parameters fun ps => .nodes (ps.map Param.toNode)
  | .block => s.run (Parser.block stack) fun b => .node b.toNode
  | .statement => s.run (Parser.statement stack) fun stmt => stmt.elim .nothing (.node ·.toNode)
  | .expression => s.runExpr (Parser.expression stack)
  | .assignment => s.runExpr (Parser.assignment (inside stack))
  | .binary above => s.runExpr (Parser.binary (inside stack) (levels.drop above))
  | .unary => s.runExpr (Parser.unary (inside stack))
  | .call => s.runExpr (Parser.call (inside stack))
  | .primary => s.runExpr (Parser.primary (inside stack))

/-- Makes a call on a stack that holds all levels below the limit. -/
def call (s : Session) (c : Call) : Except Refusal Answer × Session :=
  s.callWithin s.room c

end Session

end Parser

end Tricode
