import Tricode.Json
import Tricode.Json.Encoding

/-!
# Reading JSON

Besides the values of the standard, `NaN`, `Infinity` and `-Infinity` are read as numbers. Control
characters have to be escaped inside a text. An integer has no more than 4300 digits. Of fields with
the same name the last one counts (`Json.field?`).
-/

namespace Tricode.Json

/-- The characters that may stand between the parts of a value. -/
def isBlank (c : Char) : Bool :=
  c == ' ' || c == '\t' || c == '\n' || c == '\r'

/-- What is left behind blanks. -/
def skipBlanks (cs : List Char) : List Char :=
  cs.dropWhile isBlank

/-! ### Texts -/

/-- The value of a hexadecimal digit. -/
def hexDigit? (c : Char) : Option Nat :=
  if '0' ≤ c ∧ c ≤ '9' then some (c.toNat - '0'.toNat)
  else if 'a' ≤ c ∧ c ≤ 'f' then some (c.toNat - 'a'.toNat + 10)
  else if 'A' ≤ c ∧ c ≤ 'F' then some (c.toNat - 'A'.toNat + 10)
  else none

/-- The number of four hexadecimal digits. -/
def unit? (a b c d : Char) : Option Nat := do
  let a ← hexDigit? a
  let b ← hexDigit? b
  let c ← hexDigit? c
  let d ← hexDigit? d
  some (((a * 16 + b) * 16 + c) * 16 + d)

/-- The character that a letter behind a backslash stands for. -/
def escape? : Char → Option Char
  | '"' => some '"'
  | '\\' => some '\\'
  | '/' => some '/'
  | 'b' => some '\x08'
  | 'f' => some '\x0c'
  | 'n' => some '\n'
  | 'r' => some '\r'
  | 't' => some '\t'
  | _ => none

/-- Closes the characters found so far, in reverse, when a first half of a pair is left alone. -/
def settle (found : List Char) (high : Option Nat) : List Char :=
  match high with
  | some _ => replacement :: found
  | none => found

/-- Reads a text behind its opening quote up to its closing one; gives the text and what is left.
The characters found so far are given in reverse, and `high` is the first half of a pair if the last
character was one. -/
def readText (found : List Char) (high : Option Nat) : List Char → Option (String × List Char)
  | [] => none
  | '"' :: cs => some (String.ofList (settle found high).reverse, cs)
  | '\\' :: 'u' :: a :: b :: c :: d :: cs => do
    let unit ← unit? a b c d
    if isHigh unit then readText (settle found high) (some unit) cs
    else match high with
      | some first =>
        if isLow unit then readText (Char.ofNat (joined first unit) :: found) none cs
        else readText ((char? unit).getD replacement :: replacement :: found) none cs
      | none => readText ((char? unit).getD replacement :: found) none cs
  | '\\' :: c :: cs => do
    let c ← escape? c
    readText (c :: settle found high) none cs
  | c :: cs =>
    if c.toNat < 0x20 || c == '\\' then none else readText (c :: settle found high) none cs

/-! ### Numbers -/

/-- The most digits that an integer may have. -/
def maxDigits : Nat := 4300

/-- Digits, at least one of them. -/
def digits? (cs : List Char) : Option (List Char × List Char) :=
  match cs.takeWhile Char.isDigit with
  | [] => none
  | ds => some (ds, cs.dropWhile Char.isDigit)

/-- The digits in front of the point: a zero alone, or digits that do not begin with one. -/
def whole? : List Char → Option (List Char × List Char)
  | '0' :: cs => some (['0'], cs)
  | cs => digits? cs

/-- A point with digits behind it, if there is one. -/
def fraction : List Char → List Char × List Char
  | '.' :: cs =>
    match digits? cs with
    | some (ds, rest) => ('.' :: ds, rest)
    | none => ([], '.' :: cs)
  | cs => ([], cs)

/-- The sign of an exponent, if there is one. -/
def sign : List Char → List Char × List Char
  | '+' :: cs => (['+'], cs)
  | '-' :: cs => (['-'], cs)
  | cs => ([], cs)

/-- An exponent, if there is one. -/
def exponent (cs : List Char) : List Char × List Char :=
  match cs with
  | e :: rest =>
    if e == 'e' || e == 'E' then
      let (s, rest) := sign rest
      match digits? rest with
      | some (ds, rest) => (e :: s ++ ds, rest)
      | none => ([], cs)
    else ([], cs)
  | [] => ([], [])

/-- The value of decimal digits. -/
def digitsValue (ds : List Char) : Nat :=
  ds.foldl (fun n d => n * 10 + (d.toNat - '0'.toNat)) 0

/-- A number, given whether a minus stands before it. -/
def readUnsigned (negative : Bool) (cs : List Char) : Option (Json × List Char) := do
  let (ds, rest) ← whole? cs
  let (point, rest) := fraction rest
  let (power, rest) := exponent rest
  if point.isEmpty && power.isEmpty then
    if ds.length > maxDigits then none
    else
      let n : Int := digitsValue ds
      some (.int (if negative then -n else n), rest)
  else
    let minus := if negative then ['-'] else []
    some (.real (String.ofList (minus ++ ds ++ point ++ power)), rest)

/-- A number. -/
def readNumber : List Char → Option (Json × List Char)
  | '-' :: cs => readUnsigned true cs
  | cs => readUnsigned false cs

/-! ### Values -/

/-- The words that are values, and what each stands for. -/
def constants : List (String × Json) :=
  [("null", .null), ("true", .bool true), ("false", .bool false), ("NaN", .real "NaN"),
   ("Infinity", .real "Infinity"), ("-Infinity", .real "-Infinity")]

/-- A word that is a value. -/
def readConstant (cs : List Char) : Option (Json × List Char) := do
  let (word, value) ← constants.find? fun (word, _) => word.toList.isPrefixOf cs
  some (value, cs.drop word.length)

mutual

/-- Reads a value; gives what is left behind it. Each step inwards or onwards takes a character, and
`room` counts the steps that can still be taken. -/
def readValue : (room : Nat) → List Char → Option (Json × List Char)
  | 0, _ => none
  | room + 1, cs =>
    match cs with
    | '"' :: rest => do
      let (s, rest) ← readText [] none rest
      some (.text s, rest)
    | '[' :: rest =>
      match skipBlanks rest with
      | ']' :: rest => some (.list [], rest)
      | rest => do
        let (items, rest) ← readItems room rest
        some (.list items, rest)
    | '{' :: rest =>
      match skipBlanks rest with
      | '}' :: rest => some (.object [], rest)
      | rest => do
        let (fields, rest) ← readFields room rest
        some (.object fields, rest)
    | _ => (readConstant cs).or (readNumber cs)

/-- Reads the items of a list, one at least, up to the closing bracket. -/
def readItems : (room : Nat) → List Char → Option (List Json × List Char)
  | 0, _ => none
  | room + 1, cs => do
    let (item, rest) ← readValue room cs
    match skipBlanks rest with
    | ',' :: rest => do
      let (items, rest) ← readItems room (skipBlanks rest)
      some (item :: items, rest)
    | ']' :: rest => some ([item], rest)
    | _ => none

/-- Reads the fields of an object, one at least, up to the closing brace. -/
def readFields : (room : Nat) → List Char → Option (List (String × Json) × List Char)
  | 0, _ => none
  | room + 1, cs =>
    match cs with
    | '"' :: rest => do
      let (name, rest) ← readText [] none rest
      match skipBlanks rest with
      | ':' :: rest => do
        let (value, rest) ← readValue room (skipBlanks rest)
        match skipBlanks rest with
        | ',' :: rest => do
          let (fields, rest) ← readFields room (skipBlanks rest)
          some ((name, value) :: fields, rest)
        | '}' :: rest => some ([(name, value)], rest)
        | _ => none
      | _ => none
    | _ => none

end

/-- The value of a text that holds one value and blanks around it. -/
def ofChars? (cs : List Char) : Option Json := do
  let (value, rest) ← readValue (cs.length + 1) (skipBlanks cs)
  if (skipBlanks rest).isEmpty then some value else none

/-- The value of a JSON text in any of its encodings. -/
def ofBytes? (bytes : Text.Bytes) : Option Json := do
  let cs ← decodeText bytes
  ofChars? cs

end Tricode.Json
