import Tricode.Lowering
import Tricode.Node.Outline
import Tricode.Program.Parser
import Tricode.Symbol.Listing
import Tricode.Token.Scan
import Tricode.Typing

/-!
# Compiling a source text

A source text is scanned, parsed, checked and lowered. Each phase runs only if the one before it
found nothing wrong, so code is generated only for programs without any finding.

`compile` also keeps a log of what each phase did. `survey` runs all phases regardless of findings.
-/

namespace Tricode

/-! ### The log -/

/-- How important a log record is. -/
inductive LogLevel where
  | debug
  | info
  | warning
deriving DecidableEq, Repr

namespace LogLevel

/-- A level in words. -/
def name : LogLevel → String
  | debug => "DEBUG"
  | info => "INFO"
  | warning => "WARNING"

/-- Levels in order of importance. -/
def rank : LogLevel → Nat
  | debug => 0
  | info => 1
  | warning => 2

end LogLevel

/-- A line of the log: how important it is, which part of the compiler it comes from, what it
says. -/
structure LogRecord where
  level : LogLevel
  source : String
  message : String
deriving DecidableEq, Repr

/-- The line of a log record. -/
def LogRecord.line (r : LogRecord) : String :=
  s!"{r.level.name}:minitac.{r.source}: {r.message}"

/-! ### The result -/

/-- What has become of a source text. A phase that did not run has left nothing. -/
structure Compilation where
  tokens : List Token
  lexical : List (Finding LexicalCause)
  program : Option Program
  grammar : List (Finding GrammarCause)
  table : Option SymbolTable
  typing : List (Finding TypingCause)
  code : List Instr
  /-- The fault that stopped a phase, if one did. A parsed program gives the checker no cause for
  one, nor a checked program the code generator. -/
  fault : Option Fault
  log : List LogRecord

namespace Compilation

/-- Everything that was found wrong, in the order of the phases. -/
def diagnostics (c : Compilation) : List Diagnostic :=
  c.lexical.map Diagnostic.ofLexical ++ c.grammar.map Diagnostic.ofGrammar
    ++ c.typing.map Diagnostic.ofTyping

/-- Whether the text is a correct program. -/
def succeeded (c : Compilation) : Bool :=
  c.diagnostics.isEmpty && c.program.isSome

/-- A compilation as the fields of an object. -/
def jsonFields (c : Compilation) : List (String × Json) :=
  [("tokens", .list (c.tokens.map Token.toJson)),
   ("lexicalErrors", .list (c.lexical.map fun f => (Diagnostic.ofLexical f).toJson)),
   ("ast", c.program.elim .null fun p => p.outline.toJson),
   ("parseErrors", .list (c.grammar.map fun f => (Diagnostic.ofGrammar f).toJson)),
   ("symbolTable", c.table.elim .null SymbolTable.toJson),
   ("semanticErrors", .list (c.typing.map fun f => (Diagnostic.ofTyping f).toJson)),
   ("instructions", .texts (c.code.map Instr.line))]

end Compilation

/-! ### The phases in turn -/

/-- A phase that may run out of stack on a deeply nested program. -/
inductive LatePhase where
  | check
  | lower
deriving DecidableEq, Repr

/-- How to compile. -/
structure Options where
  /-- Whether to log the outcome of each phase. -/
  verbose : Bool
  /-- The phase that runs out of stack as soon as it is reached, if there is one. -/
  overflow : Option LatePhase

namespace Compilation

/-- The log of a phase that is reported: a summary, and the details below it. -/
def report (options : Options) (summary : String) (details : List String) : List LogRecord :=
  if options.verbose then
    (summary :: details.map fun d => s!"    {d}").map fun message => ⟨.info, "compiler", message⟩
  else []

/-- The report of a phase that has counted something and found something wrong. -/
def reportPhase (options : Options) (phase : String) (count : Nat) (what : String)
    (found : List Diagnostic) : List LogRecord :=
  report options s!"{phase}: {count} {what}, {found.length} errors" (found.map Diagnostic.text)

/-- What a phase says by itself. -/
def note (phase message : String) : List LogRecord :=
  [⟨.debug, phase, message⟩]

/-- Scans a text. -/
def ofSource (options : Options) (source : String) : Compilation :=
  let (tokens, findings) := scan source
  { tokens := tokens
    lexical := findings
    program := none
    grammar := []
    table := none
    typing := []
    code := []
    fault := none
    log :=
      note "lexer" s!"lexed {tokens.length} tokens, {findings.length} errors"
        ++ reportPhase options "lexer" tokens.length "tokens" (findings.map Diagnostic.ofLexical) }

/-- Adds a program that has been parsed. -/
def withProgram (c : Compilation) (options : Options) (program : Program)
    (findings : List (Finding GrammarCause)) : Compilation :=
  let count := program.functions.length
  { c with
    program := some program
    grammar := findings
    log := c.log
      ++ note "parser" s!"parsed {count} functions, {findings.length} errors"
      ++ reportPhase options "parser" count "functions" (findings.map Diagnostic.ofGrammar) }

/-- The finding about a program that a phase runs out of stack on. -/
def tooDeep (program : Program) : List (Finding TypingCause) :=
  [⟨.nestedTooDeeply, program.pos⟩]

/-- Checks a program. When that runs out of stack, no symbols are known but an empty global
scope. -/
def withSymbols (c : Compilation) (options : Options) (program : Program) : Compilation :=
  let overflow := options.overflow = some .check
  let a := if overflow then ⟨.empty, tooDeep program, none⟩ else analyze program
  let count := a.table.scopes.length
  { c with
    table := some a.table
    typing := a.findings
    fault := a.fault
    log := c.log
      ++ (if overflow then []
          else note "semantic" s!"analyzed {count} scopes, {a.findings.length} errors")
      ++ reportPhase options "semantic" count "scopes" (a.findings.map Diagnostic.ofTyping) }

/-- Lowers a program. When that runs out of stack, there is no code but a finding. -/
def withCode (c : Compilation) (options : Options) (program : Program) : Compilation :=
  if options.overflow = some .lower then { c with typing := tooDeep program }
  else
    match generate program with
    | .error f => { c with fault := some f }
    | .ok code =>
      { c with
        code := code
        log := c.log
          ++ note "irgen" s!"emitted {code.length} instructions"
          ++ report options s!"irgen: {code.length} instructions" (code.map Instr.line) }

end Compilation

/-- Compiles a source text. -/
def compile (options : Options) (source : String) : Compilation :=
  -- a phase runs only if those before it have found nothing
  let scanned := Compilation.ofSource options source
  if !scanned.lexical.isEmpty then scanned
  else
    let (program, findings) := parse scanned.tokens
    let parsed := scanned.withProgram options program findings
    if !findings.isEmpty then parsed
    else
      let checked := parsed.withSymbols options program
      if !checked.typing.isEmpty || checked.fault.isSome then checked
      else checked.withCode options program

/-! ### All phases regardless of findings -/

/-- What all phases make of a source text. -/
structure Survey where
  lexical : List (Finding LexicalCause)
  grammar : List (Finding GrammarCause)
  analysis : Analysis
  code : Except Fault (List Instr)

/-- Runs all phases, each on whatever the one before it gave. -/
def survey (source : String) : Survey :=
  let (tokens, lexical) := scan source
  let (program, grammar) := parse tokens
  ⟨lexical, grammar, analyze program, generate program⟩

end Tricode
