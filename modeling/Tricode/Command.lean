import Tricode.Command.Arguments
import Tricode.Command.Directory
import Tricode.Compilation

/-!
# The command

The command compiles a file, or its standard input, and writes the code. Flags add listings of the
tokens, the tree and the symbols in front of it. It ends with 0 if the text is a correct program,
with 1 if something was found wrong with it, and with 2 if it could not be read or the arguments are
wrong.
-/

namespace Tricode.Command

open Text (Bytes)

/-- How the command ended. -/
structure Report where
  exit : Nat
  stdout : String
  stderr : String
deriving DecidableEq, Repr

/-- Lines, each with its end. -/
def unlines (lines : List String) : String :=
  String.join (lines.map (· ++ "\n"))

/-- How the command is called. -/
def usage : String :=
  "usage: minitac [-h] [--tokens] [--ast] [--symbols] [-v] [file]\n"

/-- What is shown when help is asked for. -/
def helpText : String :=
  usage ++ unlines
    ["",
     "Compile a source file to three-address code.",
     "",
     "positional arguments:",
     "  file           source file (default: stdin)",
     "",
     "options:",
     "  -h, --help     show this help message and exit",
     "  --tokens       print the token stream",
     "  --ast          print the syntax tree",
     "  --symbols      print the symbol table",
     "  -v, --verbose  log every phase"]

/-- The report about arguments that are wrong. -/
def Report.ofUsageError (e : UsageError) : Report :=
  ⟨2, "", usage ++ s!"minitac: error: {e.message}\n"⟩

/-- The report about a file that cannot be read. -/
def Report.ofReadError (name : String) (e : ReadError) : Report :=
  ⟨2, "", s!"minitac: cannot read input: {e.message name}\n"⟩

/-- The source text that bytes stand for. Every kind of line end counts as a line feed. -/
def sourceText (bytes : Bytes) : Except ReadError String :=
  match Text.Utf8.decode bytes with
  | .ok cs => .ok (String.ofList (Text.unixLines cs))
  | .error e => .error (.undecodable e)

/-- Compiles a text as the settings ask. -/
def compileText (settings : Settings) (source : String) : Report :=
  let c := compile ⟨settings.has .verbose, none⟩ source
  let tokens := if settings.has .tokens then c.tokens.map Token.listing else []
  let tree :=
    if settings.has .tree then
      c.program.elim [] fun p => (p.outline.lines 0).toOption.getD []
    else []
  let symbols := if settings.has .symbols then c.table.elim [] SymbolTable.lines else []
  let log := (c.log.filter fun r => r.level.rank ≥ LogLevel.info.rank).map LogRecord.line
  { exit := if c.diagnostics.isEmpty then 0 else 1
    stdout := unlines (tokens ++ tree ++ symbols
      ++ if c.diagnostics.isEmpty then c.code.map Instr.line else [])
    stderr := unlines (log ++ c.diagnostics.map Diagnostic.text) }

/-- Compiles bytes that have been read, or reports that they could not be. -/
def compileBytes (settings : Settings) (input : Except ReadError Bytes) : Report :=
  match input.bind sourceText with
  | .ok source => compileText settings source
  | .error e => Report.ofReadError (settings.file.getD "") e

/-- The file to read; `none` for the standard input. -/
def Settings.source? (s : Settings) : Option String :=
  s.file.filter fun name => name != ""

/-- A file name that no file can have. -/
structure InvalidName where
  name : String

/-- Runs the command where files and the standard input are read in `m`, and only what the arguments
ask for is read. A name with a null character is no file name at all, and the command does not come
to an orderly end. -/
def runWith {m : Type → Type} [Monad m] (readFile : String → m (Except ReadError Bytes))
    (readStdin : m Bytes) (arguments : List String) : m (Except InvalidName Report) :=
  match parseArguments arguments with
  | .error e => pure (.ok (Report.ofUsageError e))
  | .ok .help => pure (.ok ⟨0, helpText, ""⟩)
  | .ok (.compile settings) =>
    match settings.source? with
    | none => do
      let bytes ← readStdin
      pure (.ok (compileBytes settings (.ok bytes)))
    | some name =>
      if name.toList.contains '\x00' then pure (.error ⟨name⟩)
      else do
        let input ← readFile name
        pure (.ok (compileBytes settings input))

/-- Runs the command in a directory. -/
def run (arguments : List String) (directory : Directory) (stdin : Bytes) :
    Except InvalidName Report :=
  Id.run (runWith (fun name => pure (directory.read name)) (pure stdin) arguments)

end Tricode.Command
