import Tricode.Text.Decimal
import Tricode.Text.Quoted

/-!
# Arguments of the command

An argument that begins with a dash is an option if it can be read as one: a flag by its full name,
a long flag by any beginning of its name that no other flag shares, or short flags behind one dash.
Two dashes alone end the options. What is left are file names, of which there may be one.

Arguments are told apart all at once before any of them takes effect; then they take effect from
left to right, so that a request for help is answered even if something behind it is wrong.
-/

namespace Tricode.Command

/-- The flags of the command. -/
inductive Flag where
  | help
  | tokens
  | tree
  | symbols
  | verbose
deriving DecidableEq, Repr

namespace Flag

/-- All flags, in the order in which they are listed. -/
def all : List Flag := [help, tokens, tree, symbols, verbose]

/-- The long name of a flag. -/
def long : Flag → String
  | help => "--help"
  | tokens => "--tokens"
  | tree => "--ast"
  | symbols => "--symbols"
  | verbose => "--verbose"

/-- The letter of a flag that has one. -/
def letter? : Flag → Option Char
  | help => some 'h'
  | verbose => some 'v'
  | _ => none

/-- All names of a flag, with slashes between them. -/
def title (f : Flag) : String :=
  match f.letter? with
  | some c => s!"-{c}/{f.long}"
  | none => f.long

/-- The flag of a given letter. -/
def ofLetter? (c : Char) : Option Flag :=
  all.find? fun f => f.letter? == some c

/-- The flag of a given name, and whether the name is the short one. -/
def ofName? : List Char → Option (Flag × Bool)
  | ['-', c] => (ofLetter? c).map fun f => (f, true)
  | name => (all.find? fun f => f.long.toList == name).map fun f => (f, false)

/-- The flags whose long names begin like this. -/
def ofBeginning (name : List Char) : List Flag :=
  all.filter fun f => name.isPrefixOf f.long.toList

end Flag

/-- What is wrong with the arguments. -/
inductive UsageError where
  /-- A shortened name that several flags share. -/
  | ambiguous (text : String) (flags : List Flag)
  /-- A value for a flag that takes none. -/
  | ignoredValue (flag : Flag) (value : String)
  | unrecognized (texts : List String)
deriving DecidableEq, Repr

/-- The error in words. -/
def UsageError.message : UsageError → String
  | ambiguous text flags =>
    let names := ", ".intercalate (flags.map Flag.long)
    s!"ambiguous option: {text} could match {names}"
  | ignoredValue flag value =>
    s!"argument {flag.title}: ignored explicit argument {Text.quoted value}"
  | unrecognized texts =>
    let list := " ".intercalate texts
    s!"unrecognized arguments: {list}"

/-! ### Telling arguments apart -/

/-- An argument, by its form. -/
inductive Word where
  /-- What may be a file name. -/
  | plain (text : String)
  /-- Two dashes, which end the options. -/
  | separator
  /-- A flag, by its short name or its long one, and what stands behind the name. -/
  | option (flag : Flag) (short : Bool) (value : Option (List Char))
  /-- What looks like an option and is none. -/
  | unknown (text : String)

/-- A text up to its first equals sign, and what is behind the sign if there is one. -/
def splitValue (cs : List Char) : List Char × Option (List Char) :=
  match cs.dropWhile (· != '=') with
  | _ :: value => (cs.takeWhile (· != '='), some value)
  | [] => (cs, none)

/-- Whether a text is a number: digits, or a point with digits behind it and perhaps before it. One
line feed may stand at the end. -/
def isNumber (cs : List Char) : Bool :=
  let body := if cs.getLast? == some '\n' then cs.dropLast else cs
  match body.dropWhile Text.isDecimal with
  | [] => !body.isEmpty
  | '.' :: fraction => !fraction.isEmpty && fraction.all Text.isDecimal
  | _ => false

/-- The form of an argument that begins with a dash, when the names of flags do not settle it:
negative numbers and texts with blanks are no options. -/
def dashed (text : String) (rest : List Char) : Word :=
  if isNumber rest || text.toList.contains ' ' then .plain text else .unknown text

/-- The form of an argument. -/
def Word.ofText (text : String) : Except UsageError Word :=
  match text.toList with
  | '-' :: rest =>
    match Flag.ofName? ('-' :: rest) with
    | some (flag, short) => .ok (.option flag short none)
    | none =>
      if rest.isEmpty then .ok (.plain text)
      else
        let (name, value) := splitValue ('-' :: rest)
        match value.bind fun _ => Flag.ofName? name with
        | some (flag, short) => .ok (.option flag short value)
        | none =>
          match rest with
          | '-' :: _ =>
            match Flag.ofBeginning name with
            | [flag] => .ok (.option flag false value)
            | [] => .ok (dashed text rest)
            | flags => .error (.ambiguous text flags)
          | c :: more =>
            match Flag.ofLetter? c with
            | some flag => .ok (.option flag true (some more))
            | none => .ok (dashed text rest)
          | [] => .ok (dashed text rest)
  | _ => .ok (.plain text)

/-- The forms of all arguments. -/
def words : List String → Except UsageError (List Word)
  | [] => .ok []
  | text :: texts =>
    if text == "--" then .ok (.separator :: texts.map .plain)
    else do
      let word ← Word.ofText text
      let rest ← words texts
      .ok (word :: rest)

/-! ### Taking effect -/

/-- A flag and those whose letters stand behind its own. -/
def bundled (flag : Flag) : List Char → Except UsageError (List Flag)
  | [] => .ok [flag]
  | c :: cs =>
    match Flag.ofLetter? c with
    | some next => do
      let flags ← bundled next cs
      .ok (flag :: flags)
    | none => .error (.ignoredValue flag (String.ofList (c :: cs)))

/-- The flags that an option sets. Behind a letter there may be more letters; nothing may stand
behind a long name, and nothing empty behind an equals sign. -/
def optionFlags (flag : Flag) (short : Bool) : Option (List Char) → Except UsageError (List Flag)
  | none => .ok [flag]
  | some value =>
    if short && !value.isEmpty then bundled flag value
    else .error (.ignoredValue flag (String.ofList value))

/-- What the command is to do. -/
structure Settings where
  /-- The file to compile; without one, or with an empty name, the standard input. -/
  file : Option String
  flags : List Flag
deriving DecidableEq, Repr

/-- Whether a flag is set. -/
def Settings.has (s : Settings) (flag : Flag) : Bool :=
  s.flags.contains flag

/-- The arguments that have taken effect. -/
structure Progress where
  settings : Settings
  /-- Whether the last argument was taken for the file name. -/
  justNamed : Bool
  /-- The arguments that nothing is known about. -/
  extra : List String

/-- What the arguments ask for. -/
inductive Wish where
  | help
  | compile (settings : Settings)
deriving DecidableEq, Repr

/-- Lets arguments take effect from left to right. The two dashes that end the options disappear
next to the file name, or in front of it, and count as unrecognized elsewhere. -/
def apply (p : Progress) : List Word → Except UsageError Wish
  | [] =>
    if p.extra.isEmpty then .ok (.compile p.settings) else .error (.unrecognized p.extra)
  | .plain text :: ws =>
    if p.settings.file.isSome then
      apply { p with justNamed := false, extra := p.extra ++ [text] } ws
    else apply { p with settings.file := some text, justNamed := true } ws
  | .separator :: ws =>
    if p.settings.file.isSome && !p.justNamed then
      apply { p with justNamed := false, extra := p.extra ++ ["--"] } ws
    else apply { p with justNamed := false } ws
  | .unknown text :: ws => apply { p with justNamed := false, extra := p.extra ++ [text] } ws
  | .option flag short value :: ws => do
    let flags ← optionFlags flag short value
    if flags.contains .help then .ok .help
    else
      apply { p with settings.flags := p.settings.flags ++ flags, justNamed := false } ws

/-- What a list of arguments asks for. -/
def parseArguments (arguments : List String) : Except UsageError Wish := do
  let ws ← words arguments
  apply ⟨⟨none, []⟩, false, []⟩ ws

end Tricode.Command
