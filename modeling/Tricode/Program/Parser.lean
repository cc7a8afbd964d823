import Tricode.Expr.Parser
import Tricode.Program

/-!
# Parsing statements, functions and programs

As with expressions, a block takes the parser for the statements inside it as an argument, and
`Parser.statement` is a recursion on the room that is left for nesting.

A statement that fails is left out of its block, and a function that fails is left out of the
program; parsing goes on at the next place where a statement or a function can begin. A program is
therefore always found, whatever the tokens are.
-/

namespace Tricode

namespace Parser

/-- The types of variables and parameters. -/
def valueTypes : List String := ["int", "float", "bool"]

/-- The types of functions. -/
def returnTypes : List String := ["int", "float", "bool", "void"]

variable {σ ε δ : Type} [Source σ] [Setting σ ε δ]

/-! ### Statements -/

/-- The rest of a declaration behind its type. -/
def declaration (room : Nat) (type : Token) : Reading σ ε Stmt := do
  let name ← expect .identifier (.expected .variableName)
  let init ← match ← accept [.assign] with
    | some _ => do
      let e ← expression room
      pure (some e.expr)
    | none => pure none
  let _ ← expect .semicolon (.expected .semicolonAfterDeclaration)
  pure (.declare (.ofName type.text) name.text init type.pos)

/-- The rest of a conditional behind its keyword. -/
def conditional (room : Nat) (block : Reading σ ε Block) (word : Token) : Reading σ ε Stmt := do
  let _ ← expect .leftParen (.expected .openAfterIf)
  let cond ← expression room
  let _ ← expect .rightParen (.expected .closeAfterIfCondition)
  let body ← block
  match ← acceptKeyword ["else"] with
  | some _ => do
    let alternative ← block
    pure (.ifElse cond.expr body alternative word.pos)
  | none => pure (.ifThen cond.expr body word.pos)

/-- The rest of a loop behind its keyword. -/
def whileLoop (room : Nat) (block : Reading σ ε Block) (word : Token) : Reading σ ε Stmt := do
  let _ ← expect .leftParen (.expected .openAfterWhile)
  let cond ← expression room
  let _ ← expect .rightParen (.expected .closeAfterWhileCondition)
  let body ← block
  pure (.loop cond.expr body word.pos)

/-- The rest of a return statement behind its keyword. -/
def returnStatement (room : Nat) (word : Token) : Reading σ ε Stmt := do
  let value ← if ← check .semicolon then pure none else do
    let e ← expression room
    pure (some e.expr)
  let _ ← expect .semicolon (.expected .semicolonAfterReturn)
  pure (.ret value word.pos)

/-- A statement, given the parser for its blocks. A keyword that begins no statement is reported and
taken, and is no statement. -/
def statementWith (room : Nat) (block : Reading σ ε Block) : Reading σ ε (Option Stmt) := do
  let t ← peek
  if t.tag == .keyword && !truthWords.contains t.text then do
    skip
    if valueTypes.contains t.text then some <$> declaration room t
    else if t.text == "if" then some <$> conditional room block t
    else if t.text == "while" then some <$> whileLoop room block t
    else if t.text == "return" then some <$> returnStatement room t
    else do
      Pass.write ⟨.unexpectedKeyword t.text, t.pos⟩
      pure none
  else do
    let e ← expression room
    let _ ← expect .semicolon (.expected .semicolonAfterExpression)
    pure (some (.expr e.expr t.pos))

/-- What a block does next: stop at a closing brace or at the end, or else parse a statement. -/
def blockItem (statement : Reading σ ε (Option Stmt)) : Reading σ ε (Option (Option Stmt)) := do
  if (← check .rightBrace) || (← atEnd) then pure none
  else some <$> recovering (Setting.raise σ) statement

/-- A block, given the parser for its statements. -/
def blockWith (statement : Option (Reading σ ε (Option Stmt))) : Reading σ ε Block := do
  let brace ← expect .leftBrace (.expected .openBrace)
  let found ← nested .block statement brace fun statement => many (blockItem statement)
  let _ ← expect .rightBrace (.expected .closeBrace)
  pure (.mk (found.filterMap id) brace.pos)

/-- A statement, inside which constructs may be nested `room` levels deep. -/
def statement : (room : Nat) → Reading σ ε (Option Stmt)
  | 0 => statementWith 0 (blockWith none)
  | room + 1 => statementWith (room + 1) (blockWith (some (statement room)))

/-- The parser for the statements of a block. -/
def within : (room : Nat) → Option (Reading σ ε (Option Stmt))
  | 0 => none
  | room + 1 => some (statement room)

/-- A block, itself counted, may be nested `room` levels deep. -/
def block (room : Nat) : Reading σ ε Block :=
  blockWith (within room)

/-- A `statement` is a `statementWith` blocks of one level less. -/
theorem statement_eq (room : Nat) :
    (statement room : Reading σ ε (Option Stmt)) = statementWith room (block room) := by
  cases room <;> rfl

/-! ### Functions and programs -/

/-- A parameter. -/
def parameter : Reading σ ε Param := do
  let type ← expectKeyword valueTypes (.expected .parameterType)
  let name ← expect .identifier (.expected .parameterName)
  pure ⟨.ofName type.text, name.text, type.pos⟩

/-- The parameters of a function up to the closing parenthesis. -/
def parameters : Reading σ ε (List Param) := do
  if ← check .rightParen then pure [] else commaSeparated parameter

/-- A function. -/
def function (room : Nat) : Reading σ ε Function := do
  let type ← expectKeyword returnTypes (.expected .returnType)
  let name ← expect .identifier (.expected .functionName)
  let _ ← expect .leftParen (.expected .openAfterFunctionName)
  let params ← parameters
  let _ ← expect .rightParen (.expected .closeAfterParameters)
  let body ← block room
  pure ⟨.ofName type.text, name.text, params, body, type.pos⟩

/-- What a program does next: stop at the end, or else parse a function. -/
def programItem (room : Nat) : Reading σ δ (Option (Option Function)) := do
  if ← atEnd then pure none else some <$> recovering id (some <$> function room)

/-- A program. Nothing makes it fail. -/
def program (room : Nat) : Reading σ δ Program := do
  let first ← peek
  let found ← many (programItem room)
  pure ⟨found.filterMap id, first.pos⟩

end Parser

/-- The program that a list of tokens holds, and what was found wrong with them. -/
def parse (ts : List Token) : Program × List (Finding GrammarCause) :=
  let r := Parser.program Parser.maxNesting ts
  (r.get, r.log)

end Tricode
