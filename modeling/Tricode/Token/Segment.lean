import Tricode.Diagnostic
import Tricode.Token

/-!
# Cutting a source text into segments

A source text is a concatenation of segments: blanks, lexemes, and single characters that begin no
lexeme. `segments` cuts a text from left to right, each time taking the longest lexeme that starts
there.

Main statements: `flatMap_text_segments` says that nothing of the text is lost, and `segments_cons`
that the cut goes on behind the first segment as if the text began there.
-/

namespace Tricode

/-- Why a character belongs to no token. -/
inductive LexicalCause where
  /-- The character begins no token at all. -/
  | invalidCharacter (c : Char)
  /-- The character begins an operator of two characters, and the second is missing. -/
  | invalidOperator (c : Char)
deriving DecidableEq, Repr

namespace LexicalCause

/-- The character that is reported. -/
def char : LexicalCause → Char
  | invalidCharacter c => c
  | invalidOperator c => c

/-- The cause in words. -/
def message : LexicalCause → String
  | invalidCharacter c => s!"Invalid character: {c}"
  | invalidOperator c => s!"Invalid operator: {c}"

end LexicalCause

/-- A lexical finding as it is shown. -/
def Diagnostic.ofLexical (f : Finding LexicalCause) : Diagnostic :=
  ⟨.lexical, f.cause.message, f.pos⟩

/-- A piece of a source text. -/
inductive Segment where
  /-- A blank character between lexemes. -/
  | blank (c : Char)
  /-- The text of a token. -/
  | lexeme (tag : Tag) (chars : List Char)
  /-- A character that belongs to no token. -/
  | stray (cause : LexicalCause)
deriving DecidableEq, Repr

namespace Segment

/-- The characters of the source that the segment covers. -/
def text : Segment → List Char
  | blank c => [c]
  | lexeme _ chars => chars
  | stray cause => [cause.char]

/-! ### Character classes -/

/-- The characters that may stand between lexemes. -/
def isBlank (c : Char) : Bool :=
  c == ' ' || c == '\t' || c == '\r' || c == '\n'

/-- The characters that begin a word: the letters of ASCII and the underscore. -/
def startsWord (c : Char) : Bool :=
  c.isAlpha || c == '_'

/-- The characters that continue a word. -/
def continuesWord (c : Char) : Bool :=
  c.isAlphanum || c == '_'

/-- The words that are no identifiers. -/
def keywords : List String :=
  ["int", "float", "bool", "void", "if", "else", "while", "return", "true", "false"]

/-- A word is a keyword or an identifier. -/
def wordTag (word : List Char) : Tag :=
  if keywords.contains (String.ofList word) then .keyword else .identifier

/-- The operators of two characters. -/
def pairTag : Char → Char → Option Tag
  | '=', '=' => some .equal
  | '!', '=' => some .notEqual
  | '<', '=' => some .lessEqual
  | '>', '=' => some .greaterEqual
  | '&', '&' => some .logicalAnd
  | '|', '|' => some .logicalOr
  | _, _ => none

/-- The operators and delimiters of one character. -/
def markTag : Char → Option Tag
  | '+' => some .plus
  | '-' => some .minus
  | '*' => some .multiply
  | '/' => some .divide
  | '=' => some .assign
  | '<' => some .lessThan
  | '>' => some .greaterThan
  | '!' => some .logicalNot
  | '(' => some .leftParen
  | ')' => some .rightParen
  | '{' => some .leftBrace
  | '}' => some .rightBrace
  | ';' => some .semicolon
  | ',' => some .comma
  | _ => none

/-! ### The first segment -/

/-- The number that begins with the digit `c`: digits, then perhaps a point and more digits. A point
makes it a floating-point literal, also when no digit follows. -/
def number (c : Char) (cs : List Char) : Segment × List Char :=
  let whole := c :: cs.takeWhile Char.isDigit
  match cs.dropWhile Char.isDigit with
  | '.' :: ds =>
    (lexeme .floatLiteral (whole ++ '.' :: ds.takeWhile Char.isDigit), ds.dropWhile Char.isDigit)
  | rest => (lexeme .intLiteral whole, rest)

/-- The segment of a character that stands alone: an operator, a delimiter, or a stray. -/
def mark (c : Char) : Segment :=
  match markTag c with
  | some tag => lexeme tag [c]
  | none => stray (if c == '&' || c == '|' then .invalidOperator c else .invalidCharacter c)

/-- The first segment of the text `c :: cs`, and what is left behind it. Of two operators that start
here the longer one is taken. -/
def first (c : Char) (cs : List Char) : Segment × List Char :=
  if isBlank c then (blank c, cs)
  else if startsWord c then
    let word := c :: cs.takeWhile continuesWord
    (lexeme (wordTag word) word, cs.dropWhile continuesWord)
  else if c.isDigit then number c cs
  else match cs with
    | d :: ds =>
      match pairTag c d with
      | some tag => (lexeme tag [c, d], ds)
      | none => (mark c, cs)
    | [] => (mark c, [])

/-- A `mark` covers its character, be it an operator, a delimiter or a stray. -/
theorem text_mark (c : Char) : (mark c).text = [c] := by
  unfold mark
  split
  · rfl
  · split <;> rfl

/-- The `first` segment and what is left make up the text. -/
theorem text_first_append (c : Char) (cs : List Char) :
    (first c cs).1.text ++ (first c cs).2 = c :: cs := by
  unfold first
  split
  · rfl
  split
  · simp [text]
  split
  -- the digits, and those behind a point, are taken and dropped by the same test
  · unfold number
    have hcs := List.takeWhile_append_dropWhile (p := Char.isDigit) (l := cs)
    split
    · next ds hds =>
      rw [hds] at hcs
      simp [text, hcs]
    · simp [text]
  · split
    · split
      · rfl
      · simp [text_mark]
    · simp [text_mark]

/-- The `first` segment is never empty, so less is left than there was. -/
theorem length_first_lt (c : Char) (cs : List Char) :
    (first c cs).2.length < (c :: cs).length := by
  unfold first
  split
  · simp
  split
  · simpa using Nat.lt_succ_of_le (List.dropWhile_sublist continuesWord).length_le
  split
  -- a number drops digits twice, before the point and behind it
  · unfold number
    have hcs : (cs.dropWhile Char.isDigit).length ≤ cs.length :=
      (List.dropWhile_sublist _).length_le
    split
    · next ds hds =>
      have := (List.dropWhile_sublist Char.isDigit (l := ds)).length_le
      rw [hds] at hcs
      simp only [List.length_cons] at hcs ⊢
      omega
    · simp only [List.length_cons]
      omega
  · split
    · split <;> simp only [List.length_cons] <;> omega
    · simp

/-! ### All segments -/

/-- Cuts `text` as long as `room` lasts, with the segments found so far in reverse. -/
def cut : (room text : List Char) → List Segment → List Segment
  | _ :: room, c :: cs, found => cut room (first c cs).2 ((first c cs).1 :: found)
  | _, _, found => found.reverse

/-- The segments of a text from left to right. The text itself gives room for as many cuts as it has
characters, and each cut takes at least one. -/
def segments (text : List Char) : List Segment :=
  cut text text []

/-- What `cut` finds stands behind what was found before. -/
theorem cut_found (room text : List Char) (found : List Segment) :
    cut room text found = found.reverse ++ cut room text [] := by
  induction room generalizing text found with
  | nil => simp [cut]
  | cons r room ih =>
    cases text with
    | nil => simp [cut]
    | cons c cs =>
      rw [cut, ih, cut, ih _ [_]]
      simp

/-- More room than characters changes nothing in `cut`. -/
theorem cut_eq_cut (room room' text : List Char) (h : text.length ≤ room.length)
    (h' : text.length ≤ room'.length) : cut room text [] = cut room' text [] := by
  induction room generalizing room' text with
  | nil =>
    obtain rfl : text = [] := by simpa using h
    cases room' <;> rfl
  | cons r room ih =>
    cases text with
    | nil => cases room' <;> rfl
    | cons c cs =>
      cases room' with
      | nil => simp at h'
      | cons r' room' =>
        -- both rooms lose one character, and the text loses at least one
        have hlt := length_first_lt c cs
        simp only [List.length_cons] at h h' hlt
        rw [cut, cut, cut_found room, cut_found room', ih room' _ (by omega) (by omega)]

@[simp] theorem segments_nil : segments [] = [] := rfl

/-- Behind its `first` segment a text is cut as if it began there. -/
theorem segments_cons (c : Char) (cs : List Char) :
    segments (c :: cs) = (first c cs).1 :: segments (first c cs).2 := by
  have hlt := length_first_lt c cs
  rw [segments, cut, cut_found, segments,
    cut_eq_cut cs (first c cs).2 _ (by simp only [List.length_cons] at hlt; omega) (Nat.le_refl _)]
  rfl

/-- The `segments` make up the text. -/
theorem flatMap_text_segments (cs : List Char) : (segments cs).flatMap text = cs := by
  induction hn : cs.length using Nat.strongRecOn generalizing cs with
  | ind n ih =>
    cases cs with
    | nil => rfl
    | cons c cs =>
      have hrest := ih _ (hn ▸ length_first_lt c cs) (first c cs).2 rfl
      rw [segments_cons, List.flatMap_cons, hrest, text_first_append]

end Segment

end Tricode
