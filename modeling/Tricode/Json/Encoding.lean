import Tricode.Text.Utf8

/-!
# The encoding of a JSON text

A JSON text comes in UTF-8, UTF-16 or UTF-32. A byte order mark says which; without one the zero
bytes among the first four do, since a JSON text begins with a character of ASCII.

Half of a surrogate pair is no character, but it may stand in a JSON text where a character may. It
is read as the replacement character.
-/

namespace Tricode.Json

open Text (Bytes)

/-- The order of the bytes of a unit. -/
inductive ByteOrder where
  | big
  | little
deriving DecidableEq, Repr

/-- An encoding of Unicode. -/
inductive Encoding where
  | utf8
  | utf16 (order : ByteOrder)
  | utf32 (order : ByteOrder)
deriving DecidableEq, Repr

/-- The encoding that a byte order mark announces, and the bytes behind the mark. -/
def marked? : Bytes → Option (Encoding × Bytes)
  | 0x00 :: 0x00 :: 0xFE :: 0xFF :: bs => some (.utf32 .big, bs)
  | 0xFF :: 0xFE :: 0x00 :: 0x00 :: bs => some (.utf32 .little, bs)
  | 0xFE :: 0xFF :: bs => some (.utf16 .big, bs)
  | 0xFF :: 0xFE :: bs => some (.utf16 .little, bs)
  | 0xEF :: 0xBB :: 0xBF :: bs => some (.utf8, bs)
  | _ => none

/-- The encoding of a text without a byte order mark. -/
def unmarked : Bytes → Encoding
  | a :: b :: c :: d :: _ =>
    if a = 0 then if b = 0 then .utf32 .big else .utf16 .big
    else if b = 0 then if c = 0 ∧ d = 0 then .utf32 .little else .utf16 .little
    else .utf8
  | [a, b] => if a = 0 then .utf16 .big else if b = 0 then .utf16 .little else .utf8
  | _ => .utf8

/-- The units of two bytes, with those read so far in reverse. -/
def units16 (order : ByteOrder) (found : List Nat) : Bytes → Option (List Nat)
  | [] => some found.reverse
  | [_] => none
  | a :: b :: bs =>
    let unit := match order with
      | .big => a.toNat * 256 + b.toNat
      | .little => b.toNat * 256 + a.toNat
    units16 order (unit :: found) bs

/-- The units of four bytes, with those read so far in reverse. -/
def units32 (order : ByteOrder) (found : List Nat) : Bytes → Option (List Nat)
  | [] => some found.reverse
  | a :: b :: c :: d :: bs =>
    let unit := match order with
      | .big => ((a.toNat * 256 + b.toNat) * 256 + c.toNat) * 256 + d.toNat
      | .little => ((d.toNat * 256 + c.toNat) * 256 + b.toNat) * 256 + a.toNat
    units32 order (unit :: found) bs
  | _ => none

/-- The code point of a high and a low surrogate. -/
def joined (high low : Nat) : Nat :=
  0x10000 + (high - 0xD800) * 0x400 + (low - 0xDC00)

/-- Whether a unit is the first of a pair. -/
def isHigh (unit : Nat) : Bool := 0xD800 ≤ unit && unit < 0xDC00

/-- Whether a unit is the second of a pair. -/
def isLow (unit : Nat) : Bool := 0xDC00 ≤ unit && unit < 0xE000

/-- What stands for half of a pair that lacks the other half. -/
def replacement : Char := '\ufffd'

/-- The character of a code point, if it is one; half of a pair is replaced. -/
def char? (code : Nat) : Option Char :=
  if isHigh code || isLow code then some replacement
  else if code.isValidChar then some (Char.ofNat code)
  else none

/-- The characters of units of two bytes, with those read so far in reverse. Half of a pair is
replaced if the other half does not follow. -/
def chars16 (found : List Char) : List Nat → Option (List Char)
  | [] => some found.reverse
  | high :: low :: us =>
    if isHigh high && isLow low then chars16 (Char.ofNat (joined high low) :: found) us
    else do
      let c ← char? high
      chars16 (c :: found) (low :: us)
  | [unit] => do
    let c ← char? unit
    chars16 (c :: found) []

/-- Replaces halves of pairs that are written as characters of three bytes, with the bytes read so
far in reverse. -/
def replaceHalves (found : Bytes) : Bytes → Bytes
  | 0xED :: b :: c :: bs =>
    if 0xA0 ≤ b && Text.Utf8.continues b && Text.Utf8.continues c then
      replaceHalves (0xBD :: 0xBF :: 0xEF :: found) bs
    else replaceHalves (0xED :: found) (b :: c :: bs)
  | b :: bs => replaceHalves (b :: found) bs
  | [] => found.reverse

/-- The characters that bytes in an encoding stand for. -/
def Encoding.decode : Encoding → Bytes → Option (List Char)
  | utf8, bs => (Text.Utf8.decode (replaceHalves [] bs)).toOption
  | utf16 order, bs => do
    let units ← units16 order [] bs
    chars16 [] units
  | utf32 order, bs => do
    let units ← units32 order [] bs
    units.mapM char?

/-- The characters of a JSON text. -/
def decodeText (bytes : Bytes) : Option (List Char) :=
  match marked? bytes with
  | some (encoding, rest) => encoding.decode rest
  | none => (unmarked bytes).decode bytes

end Tricode.Json
