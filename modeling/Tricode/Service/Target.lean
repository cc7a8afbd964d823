import Tricode.Json.Reader

/-!
# Request targets

The target of a request is a reference: a scheme with a colon behind it, an authority behind two
slashes, a path, and then a query or a fragment, which do not count. Only the path has to be there.

What follows the authority is read as a reference again, with a scheme and an authority of its own
(`Target.ofText`). The path of that one, in normal form and with its escapes resolved, is what the
routes are compared with; it begins with one slash, however many were written.
-/

namespace Tricode.Service

/-- A reference cut at its delimiters. A part that is not there is empty. -/
structure Reference where
  /-- The scheme, in lower case. -/
  scheme : List Char
  authority : List Char
  path : List Char
deriving DecidableEq, Repr

namespace Reference

/-! ### Cutting -/

/-- What counts of a reference: controls and blanks in front of it do not, nor do tabulators and
line ends inside it. -/
def cleaned (cs : List Char) : List Char :=
  (cs.dropWhile (· ≤ ' ')).filter fun c => c != '\t' && c != '\n' && c != '\r'

/-- The characters of a scheme. -/
def isSchemeChar (c : Char) : Bool :=
  c.isAlphanum || c == '+' || c == '-' || c == '.'

/-- The scheme, and what is left behind its colon. A scheme begins with a letter. -/
def cutScheme (cs : List Char) : List Char × List Char :=
  match cs.takeWhile isSchemeChar, cs.dropWhile isSchemeChar with
  | c :: name, ':' :: rest => if c.isAlpha then ((c :: name).map Char.toLower, rest) else ([], cs)
  | _, _ => ([], cs)

/-- Whether a character ends an authority. -/
def endsAuthority (c : Char) : Bool :=
  c == '/' || c == '?' || c == '#'

/-- The authority, and what is left behind it. -/
def cutAuthority : List Char → List Char × List Char
  | '/' :: '/' :: cs =>
    (cs.takeWhile fun c => !endsAuthority c, cs.dropWhile fun c => !endsAuthority c)
  | cs => ([], cs)

/-- Cuts a reference. -/
def ofChars (cs : List Char) : Reference :=
  let (scheme, rest) := cutScheme (cleaned cs)
  let (authority, rest) := cutAuthority rest
  ⟨scheme, authority, rest.takeWhile fun c => c != '?' && c != '#'⟩

/-! ### Normal form -/

/-- What stands behind the last at sign, and what stands before it. -/
def cutUser (authority : List Char) : List Char × List Char :=
  let host := (authority.reverse.takeWhile (· != '@')).reverse
  (authority.take (authority.length - host.length - 1), host)

/-- An authority in normal form: the host is in lower case, up to an escape in it, and neither a
user without a name is written nor a number behind the host that is missing or zero. -/
def normalAuthority (authority : List Char) : List Char :=
  let (user, rest) := cutUser authority
  let host := rest.takeWhile (· != ':')
  let number := rest.dropWhile (· != ':')
  (if (user.takeWhile (· != ':')).isEmpty then [] else user ++ ['@'])
    ++ (host.takeWhile (· != '%')).map Char.toLower ++ host.dropWhile (· != '%')
    ++ if number.all fun c => c == ':' || c == '0' then [] else number

/-- A reference in normal form. -/
def text (r : Reference) : List Char :=
  (if r.scheme.isEmpty then [] else r.scheme ++ [':'])
    ++ (if r.authority.isEmpty then [] else '/' :: '/' :: normalAuthority r.authority)
    ++ r.path

end Reference

/-- A text with its escapes resolved. -/
def unescaped : List Char → List Char
  | '%' :: a :: b :: cs =>
    match Json.hexDigit? a, Json.hexDigit? b with
    | some high, some low => Char.ofNat (high * 16 + low) :: unescaped cs
    | _, _ => '%' :: unescaped (a :: b :: cs)
  | c :: cs => c :: unescaped cs
  | [] => []

/-- What a request is directed at. -/
structure Target where
  /-- The scheme, in lower case. -/
  scheme : List Char
  /-- The path, which begins with one slash. -/
  path : List Char
deriving DecidableEq, Repr

namespace Target

/-- The target that a text stands for. -/
def ofText (text : String) : Target :=
  let outer := Reference.ofChars text.toList
  let inner := Reference.ofChars outer.path
  let path := unescaped (Reference.ofChars inner.path).text
  ⟨outer.scheme, '/' :: path.dropWhile (· == '/')⟩

/-- Whether the target is that of a web socket. -/
def isSocket (t : Target) : Bool :=
  t.scheme == "ws".toList || t.scheme == "wss".toList

end Target

end Tricode.Service
