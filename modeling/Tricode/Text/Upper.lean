/-!
# Upper case that is in ASCII

Besides the letters of ASCII, ten characters have an upper case that is made of letters of ASCII:
the sharp s, the dotless i, the long s, and seven ligatures. Every other character outside ASCII has
an upper case outside ASCII, so whether the upper case of a text is a given word of ASCII can be
told by `Text.upper`.
-/

namespace Tricode.Text

/-- The upper case of a character if it is in ASCII, and else the character itself. -/
def upperChar : Char → List Char
  | 'ß' => ['S', 'S']
  | 'ı' => ['I']
  | 'ſ' => ['S']
  | 'ﬀ' => ['F', 'F']
  | 'ﬁ' => ['F', 'I']
  | 'ﬂ' => ['F', 'L']
  | 'ﬃ' => ['F', 'F', 'I']
  | 'ﬄ' => ['F', 'F', 'L']
  | 'ﬅ' => ['S', 'T']
  | 'ﬆ' => ['S', 'T']
  | c => [c.toUpper]

/-- The upper case of a text, as far as it is in ASCII. -/
def upper (s : String) : String :=
  String.ofList (s.toList.flatMap upperChar)

/-- In ASCII, `upperChar` gives one character. -/
theorem upperChar_of_ascii {c : Char} (h : c.toNat < 128) : upperChar c = [c.toUpper] := by
  unfold upperChar
  split <;> try exact absurd h (by decide)
  rfl

end Tricode.Text
