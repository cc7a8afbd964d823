import Tricode.Text.Quoted

/-!
# Reading UTF-8

Bytes are read strictly: overlong forms, surrogates and code points beyond the last are refused. The
error names the offset, the longest beginning of a valid sequence found there (at least one byte),
and what is wrong behind it.
-/

namespace Tricode.Text

/-- Bytes of a file or a message. -/
abbrev Bytes := List UInt8

namespace Utf8

/-- What is wrong with a byte sequence. -/
inductive Problem where
  | startByte
  | continuationByte
  | endOfData
deriving DecidableEq, Repr

/-- A problem in words. -/
def Problem.text : Problem → String
  | startByte => "invalid start byte"
  | continuationByte => "invalid continuation byte"
  | endOfData => "unexpected end of data"

/-- Why bytes are no text: the offending bytes, a first one and more, and where they begin. -/
structure Error where
  offset : Nat
  first : UInt8
  more : Nat
  problem : Problem
deriving DecidableEq, Repr

/-- The error in words. -/
def Error.message (e : Error) : String :=
  if e.more = 0 then
    let code := String.ofList (hex 2 e.first.toNat)
    s!"'utf-8' codec can't decode byte 0x{code} in position {e.offset}: {e.problem.text}"
  else
    let last := e.offset + e.more
    s!"'utf-8' codec can't decode bytes in position {e.offset}-{last}: {e.problem.text}"

/-- What a first byte promises: how many bytes follow, and between which bounds the next one
lies. -/
structure Lead where
  follow : Nat
  low : UInt8
  high : UInt8

/-- The sequences of more than one byte, by their first byte. -/
def lead? (b : UInt8) : Option Lead :=
  if b < 0xC2 then none
  else if b < 0xE0 then some ⟨1, 0x80, 0xBF⟩
  else if b = 0xE0 then some ⟨2, 0xA0, 0xBF⟩
  else if b = 0xED then some ⟨2, 0x80, 0x9F⟩
  else if b < 0xF0 then some ⟨2, 0x80, 0xBF⟩
  else if b = 0xF0 then some ⟨3, 0x90, 0xBF⟩
  else if b < 0xF4 then some ⟨3, 0x80, 0xBF⟩
  else if b = 0xF4 then some ⟨3, 0x80, 0x8F⟩
  else none

/-- Whether a byte continues a sequence. -/
def continues (b : UInt8) : Bool :=
  0x80 ≤ b && b ≤ 0xBF

/-- The six bits that a continuation byte carries, behind those before it. -/
def push (code : Nat) (b : UInt8) : Nat :=
  code * 64 + b.toNat % 64

/-- Reads the bytes from `offset` on, with the characters read so far in reverse. -/
def decodeFrom (offset : Nat) (found : List Char) : Bytes → Except Error (List Char)
  | [] => .ok found.reverse
  | b :: bs =>
    if b < 0x80 then decodeFrom (offset + 1) (Char.ofNat b.toNat :: found) bs
    else match lead? b with
    | none => .error ⟨offset, b, 0, .startByte⟩
    | some lead =>
      match bs with
      | [] => .error ⟨offset, b, 0, .endOfData⟩
      | c :: cs =>
        if c < lead.low || lead.high < c then .error ⟨offset, b, 0, .continuationByte⟩
        else if lead.follow = 1 then
          decodeFrom (offset + 2) (Char.ofNat (push (b.toNat % 32) c) :: found) cs
        else match cs with
        | [] => .error ⟨offset, b, 1, .endOfData⟩
        | d :: ds =>
          if !continues d then .error ⟨offset, b, 1, .continuationByte⟩
          else if lead.follow = 2 then
            decodeFrom (offset + 3) (Char.ofNat (push (push (b.toNat % 16) c) d) :: found) ds
          else match ds with
          | [] => .error ⟨offset, b, 2, .endOfData⟩
          | e :: es =>
            if !continues e then .error ⟨offset, b, 2, .continuationByte⟩
            else
              decodeFrom (offset + 4)
                (Char.ofNat (push (push (push (b.toNat % 8) c) d) e) :: found) es

/-- The characters that bytes stand for. -/
def decode (bytes : Bytes) : Except Error (List Char) :=
  decodeFrom 0 [] bytes

end Utf8

/-- Turns line ends into line feeds, with the characters read so far in reverse. -/
def unixFrom (found : List Char) : List Char → List Char
  | '\r' :: '\n' :: cs => unixFrom ('\n' :: found) cs
  | '\r' :: cs => unixFrom ('\n' :: found) cs
  | c :: cs => unixFrom (c :: found) cs
  | [] => found.reverse

/-- Turns a carriage return, alone or with a line feed behind it, into a line feed. -/
def unixLines (cs : List Char) : List Char :=
  unixFrom [] cs

end Tricode.Text
