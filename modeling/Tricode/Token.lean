import Tricode.Position

/-!
# Tokens

A token has a tag, its text and its position. The tags are those of the language and one more,
`Tag.other`, for tokens made by hand whose tag the language does not know.
-/

namespace Tricode

/-- What kind of token it is. -/
inductive Tag where
  | keyword
  | identifier
  | intLiteral
  | floatLiteral
  | plus
  | minus
  | multiply
  | divide
  | assign
  | equal
  | notEqual
  | lessThan
  | greaterThan
  | lessEqual
  | greaterEqual
  | logicalAnd
  | logicalOr
  | logicalNot
  | leftParen
  | rightParen
  | leftBrace
  | rightBrace
  | semicolon
  | comma
  | eof
  /-- A tag that the language does not know. -/
  | other (name : String)
deriving DecidableEq, Repr

namespace Tag

/-- The tags of the language. -/
def known : List Tag :=
  [keyword, identifier, intLiteral, floatLiteral, plus, minus, multiply, divide, assign, equal,
    notEqual, lessThan, greaterThan, lessEqual, greaterEqual, logicalAnd, logicalOr, logicalNot,
    leftParen, rightParen, leftBrace, rightBrace, semicolon, comma, eof]

/-- The name under which a tag is listed. -/
def name : Tag → String
  | keyword => "KEYWORD"
  | identifier => "IDENTIFIER"
  | intLiteral => "INT_LITERAL"
  | floatLiteral => "FLOAT_LITERAL"
  | plus => "PLUS"
  | minus => "MINUS"
  | multiply => "MULTIPLY"
  | divide => "DIVIDE"
  | assign => "ASSIGN"
  | equal => "EQUAL"
  | notEqual => "NOT_EQUAL"
  | lessThan => "LESS_THAN"
  | greaterThan => "GREATER_THAN"
  | lessEqual => "LESS_EQUAL"
  | greaterEqual => "GREATER_EQUAL"
  | logicalAnd => "LOGICAL_AND"
  | logicalOr => "LOGICAL_OR"
  | logicalNot => "LOGICAL_NOT"
  | leftParen => "LEFT_PAREN"
  | rightParen => "RIGHT_PAREN"
  | leftBrace => "LEFT_BRACE"
  | rightBrace => "RIGHT_BRACE"
  | semicolon => "SEMICOLON"
  | comma => "COMMA"
  | eof => "EOF"
  | other name => name

/-- The tag of a given name. -/
def ofName (name : String) : Tag :=
  (known.find? fun tag => tag.name == name).getD (other name)

/-- A tag read from a name is listed under that name. -/
theorem name_ofName (name : String) : (ofName name).name = name := by
  unfold ofName
  cases h : known.find? fun tag => tag.name == name with
  | none => rfl
  | some tag => simpa using List.find?_some h

end Tag

/-- A token: its tag, its text as it stands in the source, and the position of its first
character. -/
structure Token where
  tag : Tag
  text : String
  pos : Pos
deriving DecidableEq, Repr

namespace Token

/-- The token that ends every scanned text. -/
def endAt (pos : Pos) : Token := ⟨.eof, "", pos⟩

/-- What stands behind a token list that has run out: an end token that lies nowhere in the text. -/
def beyond : Token := endAt ⟨0, 0⟩

/-- Whether the token ends the input. -/
def isEnd (t : Token) : Bool := t.tag == .eof

/-- Whether the token is one of the given keywords. -/
def isKeyword (t : Token) (words : List String) : Bool :=
  t.tag == .keyword && words.contains t.text

/-- The line of a token listing: position, tag and text, set apart by tabulators. -/
def listing (t : Token) : String :=
  s!"{t.pos.line}:{t.pos.column}\t{t.tag.name}\t{t.text}"

end Token

end Tricode
