import Tricode.Parser.Cause
import Tricode.Pass
import Tricode.Token

/-!
# Parsers

A parser is a pass over a state that holds the tokens which are still to be read. It reads up to the
first end token and never behind it; where the list runs out without one, it sees the end token
`Token.beyond`.

The grammar is written once for every state. `Parser.Source` gives access to the tokens, and
`Parser.Setting` says how a parser fails and what happens on the way into a construct and out of it.
The tokens themselves are the simplest state: there the levels of nesting are bounded by the parser
for what stands inside, which is missing at the last level. The state that counts the levels is
`Parser.Cursor`.

Repetition is `Parser.loop`. A step either goes on, and then it has read a token, or says that the
loop is over, so a loop makes no more steps than there are tokens: the tokens at its start serve as
the measure of the recursion. `Parser.loop_apply` is the equation by which a loop is reasoned about.

Panic-mode recovery is `Parser.synchronize`: a token is skipped, and more of them until just behind
a semicolon, just before a keyword that may begin a statement or a function, or the end.
-/

namespace Tricode

/-- A pass over states `σ` that reports findings. -/
abbrev Reading (σ : Type) := Pass σ (Finding GrammarCause)

/-- A pass over tokens that reports findings. -/
abbrev Reader := Reading (List Token)

/-- A reader that may fail with the cause it has reported last. -/
abbrev Parser := Reader GrammarCause

namespace Parser

variable {σ α β ε δ ε' : Type}

/-! ### States -/

/-- A state that holds the tokens which are still to be read. -/
class Source (σ : Type) where
  /-- What is left of the tokens. -/
  left : σ → List Token
  /-- The state with other tokens left. -/
  moved : (List Token → List Token) → σ → σ

/-- The ways of a parser on states `σ`: what it fails with, and how it goes one level further in. Of
the failures `ε`, recovery deals with all but those that are some `δ`. -/
class Setting (σ : Type) (ε δ : outParam Type) where
  /-- The failure for a cause. -/
  failure : GrammarCause → ε
  /-- What of a failure recovery does not deal with. -/
  fatal : ε → Option δ
  /-- Such a failure again. -/
  raise : δ → ε
  /-- Runs the body of the construct that the token opens with the parser for what stands one level
  further in. -/
  nested {α β : Type} (what : Construct) (inner : Option (Reading σ ε α)) (opening : Token)
    (body : Reading σ ε α → Reading σ ε β) : Reading σ ε β

export Setting (nested)

/-- Reports a cause at a token, and fails. -/
def failWith (failure : ε) (cause : GrammarCause) (t : Token) : Reading σ ε α := do
  Pass.write ⟨cause, t.pos⟩
  Pass.fail failure

/-! ### Tokens as a state -/

instance : Source (List Token) where
  left ts := ts
  moved f ts := f ts

/-- Without a parser for what stands inside there is no room left, and the construct is nested too
deeply. -/
instance : Setting (List Token) GrammarCause Empty where
  failure cause := cause
  fatal _ := none
  raise := Empty.elim
  nested what inner opening body :=
    match inner with
    | some p => body p
    | none => failWith (.nestedTooDeeply what) (.nestedTooDeeply what) opening

@[simp] theorem fatal_list (cause : GrammarCause) :
    Setting.fatal (List Token) cause = none := rfl

@[simp] theorem left_list (ts : List Token) : Source.left ts = ts := rfl

@[simp] theorem moved_list (f : List Token → List Token) (ts : List Token) :
    Source.moved f ts = f ts := rfl

/-! ### Looking at the next token -/

section

variable [Source σ]

open Source (left moved)

/-- The next token of a list. -/
def next (ts : List Token) : Token :=
  ts.headD .beyond

/-- The next token. -/
def peek : Reading σ ε Token := fun s => ⟨.ok (next (left s)), [], s⟩

/-- Whether the input has ended. -/
def atEnd : Reading σ ε Bool := fun s => ⟨.ok (next (left s)).isEnd, [], s⟩

/-- Whether the next token has one of these tags. At the end no tag is found, not even that of the
end token. -/
def sees (tags : List Tag) (ts : List Token) : Bool :=
  !(next ts).isEnd && tags.contains (next ts).tag

/-- Whether the next token has this tag. -/
def check (tag : Tag) : Reading σ ε Bool := fun s => ⟨.ok (sees [tag] (left s)), [], s⟩

/-- Whether the next token is one of these keywords. -/
def checkKeyword (words : List String) : Reading σ ε Bool := fun s =>
  ⟨.ok ((next (left s)).isKeyword words), [], s⟩

/-! ### Taking it -/

/-- Goes past the next token. -/
def skip : Reading σ ε Unit := fun s => ⟨.ok (), [], moved List.tail s⟩

/-- Takes the next token if it has one of these tags. -/
def accept (tags : List Tag) : Reading σ ε (Option Token) := fun s =>
  if sees tags (left s) then ⟨.ok (some (next (left s))), [], moved List.tail s⟩
  else ⟨.ok none, [], s⟩

/-- Takes the next token if it is one of these keywords. -/
def acceptKeyword (words : List String) : Reading σ ε (Option Token) := fun s =>
  if (next (left s)).isKeyword words then ⟨.ok (some (next (left s))), [], moved List.tail s⟩
  else ⟨.ok none, [], s⟩

/-- Reports a cause at a token, and fails with it. -/
def failAt [Setting σ ε δ] (cause : GrammarCause) (t : Token) : Reading σ ε α :=
  failWith (Setting.failure σ cause) cause t

/-- Takes a token with this tag, or fails at the next token. -/
def expect [Setting σ ε δ] (tag : Tag) (cause : GrammarCause) : Reading σ ε Token := do
  match ← accept [tag] with
  | some t => pure t
  | none => failAt cause (← peek)

/-- Takes one of these keywords, or fails at the next token. -/
def expectKeyword [Setting σ ε δ] (words : List String) (cause : GrammarCause) :
    Reading σ ε Token := do
  match ← acceptKeyword words with
  | some t => pure t
  | none => failAt cause (← peek)

end

theorem skip_apply (ts : List Token) : (skip : Reader ε Unit) ts = ⟨.ok (), [], ts.tail⟩ := rfl

/-- What `accept` does to a token list: it takes the next token if that has one of the tags. -/
theorem accept_apply (tags : List Tag) (ts : List Token) :
    (accept tags : Reader ε (Option Token)) ts =
      if sees tags ts then ⟨.ok (some (next ts)), [], ts.tail⟩ else ⟨.ok none, [], ts⟩ := rfl

/-- What `acceptKeyword` does to a token list. -/
theorem acceptKeyword_apply (words : List String) (ts : List Token) :
    (acceptKeyword words : Reader ε (Option Token)) ts =
      if (next ts).isKeyword words then ⟨.ok (some (next ts)), [], ts.tail⟩
      else ⟨.ok none, [], ts⟩ := rfl

/-- Where there is room, a token list is parsed on by the body of the `Construct`. -/
@[simp] theorem nested_some (what : Construct) (p : Parser α) (opening : Token)
    (body : Parser α → Parser β) : nested what (some p) opening body = body p := rfl

/-- Where there is none, the `Construct` fails at its opening token. -/
@[simp] theorem nested_none (what : Construct) (opening : Token) (body : Parser α → Parser β) :
    nested what none opening body = failAt (.nestedTooDeeply what) opening := rfl

/-! ### Repetition -/

/-- Makes steps as long as `room` lasts, with the log so far in reverse. -/
def loopFrom (step : α → Reading σ ε (Option α)) :
    (room : List Token) → α → σ → List (Finding GrammarCause) →
      Outcome σ (Finding GrammarCause) ε α
  | [], a, s, log => ⟨.ok a, log.reverse, s⟩
  | _ :: room, a, s, log =>
    match step a s with
    | ⟨.ok (some a'), new, rest⟩ => loopFrom step room a' rest (new.reverse ++ log)
    | ⟨.ok none, new, rest⟩ => ⟨.ok a, (new.reverse ++ log).reverse, rest⟩
    | ⟨.error e, new, rest⟩ => ⟨.error e, (new.reverse ++ log).reverse, rest⟩

/-- Repeats a step, which gives the value to go on with, or `none` if the loop is over. -/
def loop [Source σ] (step : α → Reading σ ε (Option α)) (a : α) : Reading σ ε α := fun s =>
  loopFrom step (Source.left s) a s []

/-- Collects what an item gives until it gives nothing. -/
def many [Source σ] (item : Reading σ ε (Option α)) : Reading σ ε (List α) := do
  let found ← loop (fun found => do
    match ← item with
    | some a => pure (some (a :: found))
    | none => pure none) []
  pure found.reverse

/-- One item or more, with commas between them. -/
def commaSeparated [Source σ] (item : Reading σ ε α) : Reading σ ε (List α) := do
  let first ← item
  let rest ← many (do
    match ← accept [.comma] with
    | some _ => some <$> item
    | none => pure none)
  pure (first :: rest)

/-- `loopFrom` with a log to begin with is the loop with that log put in front. -/
theorem loopFrom_log (step : α → Reader ε (Option α)) (room : List Token) (a : α)
    (ts : List Token) (log : List (Finding GrammarCause)) :
    loopFrom step room a ts log =
      ⟨(loopFrom step room a ts []).value, log.reverse ++ (loopFrom step room a ts []).log,
        (loopFrom step room a ts []).state⟩ := by
  -- by induction on the room, with the log free: each step only adds to it in front
  induction room generalizing a ts log with
  | nil => simp [loopFrom]
  | cons t room ih =>
    simp only [loopFrom]
    split
    · next a' new rest h =>
      rw [ih, ih a' rest (_ ++ [])]
      simp
    · simp
    · simp

/-- A step that stops where nothing is left, and that reads a token whenever it goes on. -/
structure Progresses (step : α → Reader ε (Option α)) : Prop where
  stops : ∀ a, step a [] = ⟨.ok none, [], []⟩
  reads : ∀ a ts a' new rest, step a ts = ⟨.ok (some a'), new, rest⟩ → rest.length < ts.length

/-- More room than tokens changes nothing in `loopFrom` where the step `Progresses`. -/
theorem loopFrom_eq_loopFrom {step : α → Reader ε (Option α)} (hstep : Progresses step)
    (room room' : List Token) (a : α) (ts : List Token) (h : ts.length ≤ room.length)
    (h' : ts.length ≤ room'.length) : loopFrom step room a ts [] = loopFrom step room' a ts [] := by
  induction room generalizing room' a ts with
  | nil =>
    obtain rfl : ts = [] := by simpa using h
    cases room' with
    | nil => rfl
    | cons t' room' => simp [loopFrom, hstep.stops]
  | cons t room ih =>
    cases room' with
    | nil =>
      obtain rfl : ts = [] := by simpa using h'
      simp [loopFrom, hstep.stops]
    | cons t' room' =>
      simp only [loopFrom]
      split
      · next a' new rest hs =>
        -- a step that goes on has read a token, so what is left fits into the smaller rooms
        have hlt := hstep.reads _ _ _ _ _ hs
        simp only [List.length_cons] at h h'
        rw [loopFrom_log step room, loopFrom_log step room', ih room' a' rest (by omega) (by omega)]
      · rfl
      · rfl

/-- A `loop` makes its first step and goes on from what that step gives. -/
theorem loop_apply {step : α → Reader ε (Option α)} (hstep : Progresses step) (a : α) :
    loop step a = (do
      match ← step a with
      | some a' => loop step a'
      | none => pure a) := by
  funext ts
  cases ts with
  | nil => simp [loop, loopFrom, bind, hstep.stops]
  | cons t ts =>
    simp only [loop, left_list, loopFrom, bind]
    cases hs : step a (t :: ts) with
    | mk value new rest =>
      cases value with
      | error e => simp
      | ok a? =>
        cases a? with
        | none => simp
        | some a' =>
          -- the loop goes on with the room of the old tokens, which is more than the rest needs
          have hlt := hstep.reads _ _ _ _ _ hs
          simp only [List.length_cons] at hlt
          simp only
          rw [loopFrom_log, loopFrom_eq_loopFrom hstep ts rest a' rest (by omega) (Nat.le_refl _)]
          simp [loop]

/-! ### Recovery -/

/-- The keywords that may begin a statement, a declaration or a function. -/
def recoveryWords : List String :=
  ["int", "float", "bool", "void", "if", "while", "return"]

/-- Skips tokens, the last skipped being `last`, until one after which, or before which, parsing can
go on. -/
def skipFrom (last : Token) : List Token → List Token
  | [] => []
  | t :: ts =>
    if t.isEnd || last.tag == .semicolon || t.isKeyword recoveryWords then t :: ts
    else skipFrom t ts

/-- What is left of the tokens after recovery. -/
def recovered : List Token → List Token
  | [] => []
  | t :: ts => if t.isEnd then t :: ts else skipFrom t ts

/-- Leaves the place of a failure behind. -/
def synchronize [Source σ] : Reading σ ε Unit := fun s => ⟨.ok (), [], Source.moved recovered s⟩

/-- Runs a parser; if it fails, recovers and gives nothing, unless the failure goes on as `raise`
says. -/
def recovering [Source σ] [Setting σ ε δ] (raise : δ → ε') (p : Reading σ ε (Option α)) :
    Reading σ ε' (Option α) := do
  match ← Pass.attempt p with
  | .ok a => pure a
  | .error e =>
    match Setting.fatal σ e with
    | some d => Pass.fail (raise d)
    | none => do
      synchronize
      pure none

/-! ### Nesting -/

/-- How deeply constructs may be nested: parentheses, argument lists, right sides of assignments and
blocks. -/
def maxNesting : Nat := 50

/-- How deep an expression may be. -/
def maxDepth : Nat := 200

end Parser

end Tricode
