import Tricode.Proofs.Token.LineEnds
import Tricode.Proofs.Token.Partition

/-!
# The scanner takes the longest lexeme

`Lexeme tag chars` is the lexical grammar: the words, the numbers, the operators and the delimiters,
each with its tag. It says nothing about scanning. `LongestMatch` is the rule by which a text is cut
with such a grammar: at each place a blank is skipped, or else the longest lexeme that begins there
is taken, or else, where no lexeme begins, the character is a stray.

The rule leaves no choice (`LongestMatch.unique`), and it is what the scanner does
(`scan_longest_match`). The scanner decides by the first character which kind of lexeme to read.
That this is enough is because the first character of a lexeme tells its kind: a letter begins words
only, a digit numbers only.
-/

namespace Tricode

/-! ### The lexical grammar -/

/-- The letters `[A-Za-z_]`. -/
def Letter (c : Char) : Prop :=
  'A' ≤ c ∧ c ≤ 'Z' ∨ 'a' ≤ c ∧ c ≤ 'z' ∨ c = '_'

/-- The digits `[0-9]`. -/
def Digit (c : Char) : Prop :=
  '0' ≤ c ∧ c ≤ '9'

/-- The ten keywords. -/
def reservedWords : List String :=
  ["int", "float", "bool", "void", "if", "else", "while", "return", "true", "false"]

/-- The fourteen operators. -/
def operators : List (List Char × Tag) :=
  [(['+'], .plus), (['-'], .minus), (['*'], .multiply), (['/'], .divide), (['='], .assign),
    (['=', '='], .equal), (['!', '='], .notEqual), (['<'], .lessThan), (['>'], .greaterThan),
    (['<', '='], .lessEqual), (['>', '='], .greaterEqual), (['&', '&'], .logicalAnd),
    (['|', '|'], .logicalOr), (['!'], .logicalNot)]

/-- The six delimiters. -/
def delimiters : List (List Char × Tag) :=
  [(['('], .leftParen), ([')'], .rightParen), (['{'], .leftBrace), (['}'], .rightBrace),
    ([';'], .semicolon), ([','], .comma)]

/-- The characters are a lexeme of this kind. A word is a keyword if it is one of the ten keywords
as a whole, and a number is a floating-point literal if there is a point in it. -/
inductive Lexeme : Tag → List Char → Prop where
  | keyword {c : Char} {cs : List Char} (hc : Letter c) (hcs : ∀ d ∈ cs, Letter d ∨ Digit d)
    (hword : String.ofList (c :: cs) ∈ reservedWords) : Lexeme .keyword (c :: cs)
  | identifier {c : Char} {cs : List Char} (hc : Letter c) (hcs : ∀ d ∈ cs, Letter d ∨ Digit d)
    (hword : String.ofList (c :: cs) ∉ reservedWords) : Lexeme .identifier (c :: cs)
  | int {d : Char} {ds : List Char} (hd : Digit d) (hds : ∀ e ∈ ds, Digit e) :
    Lexeme .intLiteral (d :: ds)
  | float {d : Char} {ds es : List Char} (hd : Digit d) (hds : ∀ e ∈ ds, Digit e)
    (hes : ∀ e ∈ es, Digit e) : Lexeme .floatLiteral (d :: (ds ++ '.' :: es))
  | operator {chars : List Char} {tag : Tag} (h : (chars, tag) ∈ operators) : Lexeme tag chars
  | delimiter {chars : List Char} {tag : Tag} (h : (chars, tag) ∈ delimiters) : Lexeme tag chars

instance (c : Char) : Decidable (Letter c) :=
  inferInstanceAs (Decidable (_ ∨ _))

instance (c : Char) : Decidable (Digit c) :=
  inferInstanceAs (Decidable (_ ∧ _))

/-- The longest lexeme at the front of the text. -/
structure LongestLexeme (tag : Tag) (chars text : List Char) : Prop where
  lexeme : Lexeme tag chars
  begins : chars <+: text
  longest : ∀ tag' chars', Lexeme tag' chars' → chars' <+: text → chars'.length ≤ chars.length

/-- No lexeme stands at the front of the text. -/
def NoLexeme (text : List Char) : Prop :=
  ∀ tag chars, Lexeme tag chars → ¬ chars <+: text

/-- What is reported about a character at which no lexeme begins. -/
def strayCause (c : Char) : LexicalCause :=
  if c ∈ ['&', '|'] then .invalidOperator c else .invalidCharacter c

/-- Behind the text `before`, the text `rest` is cut by longest match, and the items are found. -/
inductive LongestMatch : (before rest : List Char) → List Item → Prop where
  | done {before : List Char} : LongestMatch before [] []
  | blank {before cs : List Char} {items : List Item} {c : Char} (hc : c ∈ blanks)
    (others : LongestMatch (before ++ [c]) cs items) : LongestMatch before (c :: cs) items
  | token {before rest cs : List Char} {items : List Item} {t : Token}
    (hsplit : rest = t.text.toList ++ cs) (hpos : t.pos = Pos.behind before)
    (hlongest : LongestLexeme t.tag t.text.toList rest)
    (others : LongestMatch (before ++ t.text.toList) cs items) :
    LongestMatch before rest (.token t :: items)
  | stray {before cs : List Char} {items : List Item} {c : Char} {f : Finding LexicalCause}
    (hc : c ∉ blanks) (hpos : f.pos = Pos.behind before) (hnone : NoLexeme (c :: cs))
    (hcause : f.cause = strayCause c) (others : LongestMatch (before ++ [c]) cs items) :
    LongestMatch before (c :: cs) (.stray f :: items)

/-! ### Characters -/

theorem startsWord_eq_true_iff {c : Char} : Segment.startsWord c = true ↔ Letter c := by
  change (decide ('A'.val ≤ c.val ∧ c.val ≤ 'Z'.val) ||
    decide ('a'.val ≤ c.val) && decide (c.val ≤ 'z'.val) || c == '_') = true ↔
      'A'.val ≤ c.val ∧ c.val ≤ 'Z'.val ∨ 'a'.val ≤ c.val ∧ c.val ≤ 'z'.val ∨ c = '_'
  simp only [Bool.or_eq_true, Bool.and_eq_true, decide_eq_true_eq, beq_iff_eq, or_assoc]

theorem isDigit_eq_true_iff {c : Char} : c.isDigit = true ↔ Digit c := by
  change (decide ('0'.val ≤ c.val) && decide (c.val ≤ '9'.val)) = true ↔
    '0'.val ≤ c.val ∧ c.val ≤ '9'.val
  simp only [Bool.and_eq_true, decide_eq_true_eq]

theorem continuesWord_eq_true_iff {c : Char} :
    Segment.continuesWord c = true ↔ Letter c ∨ Digit c := by
  have heq : Segment.continuesWord c = (Segment.startsWord c || c.isDigit) := by
    show (c.isAlpha || c.isDigit || c == '_') = (c.isAlpha || c == '_' || c.isDigit)
    rw [Bool.or_assoc, Bool.or_comm c.isDigit, ← Bool.or_assoc]
  rw [heq, Bool.or_eq_true, startsWord_eq_true_iff, isDigit_eq_true_iff]

/-- The words that `Segment.keywords` holds are the `reservedWords`. -/
theorem contains_keywords_iff {word : String} :
    Segment.keywords.contains word = true ↔ word ∈ reservedWords :=
  List.contains_iff_mem

theorem Letter.not_digit {c : Char} (hc : Letter c) : ¬ Digit c := by
  rw [← isDigit_eq_true_iff, Bool.not_eq_true]
  exact Segment.isDigit_eq_false_of_startsWord (startsWord_eq_true_iff.2 hc)

/-! ### Lexemes by their first characters -/

/-- The tag of an operator or a delimiter. -/
def signTag : List Char → Option Tag
  | [c] => Segment.markTag c
  | [c, d] => Segment.pairTag c d
  | _ => none

/-- `signTag` finds the tag of an operator or a delimiter by its characters. -/
theorem signTag_of_mem {chars : List Char} {tag : Tag}
    (h : (chars, tag) ∈ operators ++ delimiters) :
    signTag chars = some tag := by
  have htable : ∀ sign ∈ operators ++ delimiters, signTag sign.1 = some sign.2 := by decide
  exact htable _ h

/-- A mark that has a tag is a `Lexeme`. -/
theorem lexeme_mark {c : Char} {tag : Tag} (h : Segment.markTag c = some tag) : Lexeme tag [c] := by
  unfold Segment.markTag at h
  split at h
  case h_15 => cases h
  all_goals
    cases h
    first
    | exact .operator (by decide)
    | exact .delimiter (by decide)

/-- A pair of characters that has a tag is a `Lexeme`. -/
theorem lexeme_pair {c d : Char} {tag : Tag} (h : Segment.pairTag c d = some tag) :
    Lexeme tag [c, d] := by
  unfold Segment.pairTag at h
  split at h
  case h_7 => cases h
  all_goals
    cases h
    exact .operator (by decide)

/-- Operators and `delimiters` have no letters and no digits in them. -/
theorem not_letter_of_mem {chars : List Char} {tag : Tag}
    (h : (chars, tag) ∈ operators ++ delimiters)
    {c : Char} (hc : c ∈ chars) : ¬ Letter c ∧ ¬ Digit c ∧ c ∉ blanks := by
  have htable : ((operators ++ delimiters).all fun sign => sign.1.all fun c =>
      decide (¬ Letter c ∧ ¬ Digit c ∧ c ∉ blanks)) = true := by
    decide
  have hsign := List.all_eq_true.1 (List.all_eq_true.1 htable _ h) c hc
  exact of_decide_eq_true hsign

namespace Lexeme

variable {tag : Tag} {c : Char} {cs chars : List Char}

theorem ne_nil (h : Lexeme tag chars) : chars ≠ [] := by
  rintro rfl
  cases h with
  | operator h | delimiter h => exact absurd h (by simp [operators, delimiters])

/-- What begins with a `Letter` is a word. -/
theorem of_letter (h : Lexeme tag (c :: cs)) (hc : Letter c) :
    (∀ d ∈ cs, Segment.continuesWord d = true) ∧ tag = Segment.wordTag (c :: cs) := by
  -- only words begin with a letter
  cases h with
  | keyword _ hcs hword =>
    refine ⟨fun d hd => continuesWord_eq_true_iff.2 (hcs d hd), ?_⟩
    rw [Segment.wordTag, if_pos (contains_keywords_iff.2 hword)]
  | identifier _ hcs hword =>
    refine ⟨fun d hd => continuesWord_eq_true_iff.2 (hcs d hd), ?_⟩
    rw [Segment.wordTag, if_neg (fun hmem => hword (contains_keywords_iff.1 hmem))]
  | int hd => exact absurd hd hc.not_digit
  | float hd => exact absurd hd hc.not_digit
  | operator h =>
    exact absurd hc (not_letter_of_mem (List.mem_append_left _ h) List.mem_cons_self).1
  | delimiter h =>
    exact absurd hc (not_letter_of_mem (List.mem_append_right _ h) List.mem_cons_self).1

/-- What begins with a `Digit` is a number. -/
theorem of_digit (h : Lexeme tag (c :: cs)) (hc : Digit c) :
    tag = .intLiteral ∧ (∀ d ∈ cs, d.isDigit = true) ∨
      tag = .floatLiteral ∧ ∃ ds es, cs = ds ++ '.' :: es ∧ (∀ d ∈ ds, d.isDigit = true) ∧
        ∀ e ∈ es, e.isDigit = true := by
  cases h with
  | keyword hletter => exact absurd hc hletter.not_digit
  | identifier hletter => exact absurd hc hletter.not_digit
  | int _ hds => exact .inl ⟨rfl, fun d hd => isDigit_eq_true_iff.2 (hds d hd)⟩
  | @float _ ds es _ hds hes =>
    exact .inr ⟨rfl, ds, es, rfl, fun d hd => isDigit_eq_true_iff.2 (hds d hd),
      fun e he => isDigit_eq_true_iff.2 (hes e he)⟩
  | operator h =>
    exact absurd hc (not_letter_of_mem (List.mem_append_left _ h) List.mem_cons_self).2.1
  | delimiter h =>
    exact absurd hc (not_letter_of_mem (List.mem_append_right _ h) List.mem_cons_self).2.1

/-- Whatever else begins a `Lexeme` begins an operator or a delimiter. -/
theorem of_other (h : Lexeme tag (c :: cs)) (hletter : ¬ Letter c) (hdigit : ¬ Digit c) :
    signTag (c :: cs) = some tag := by
  cases h with
  | keyword hc => exact absurd hc hletter
  | identifier hc => exact absurd hc hletter
  | int hd => exact absurd hd hdigit
  | float hd => exact absurd hd hdigit
  | operator h => exact signTag_of_mem (List.mem_append_left _ h)
  | delimiter h => exact signTag_of_mem (List.mem_append_right _ h)

/-- The characters of a `Lexeme` tell its tag. -/
theorem tag_unique {tag' : Tag} (h : Lexeme tag chars) (h' : Lexeme tag' chars) : tag = tag' := by
  obtain ⟨c, cs, rfl⟩ := List.exists_cons_of_ne_nil h.ne_nil
  by_cases hletter : Letter c
  · rw [(h.of_letter hletter).2, (h'.of_letter hletter).2]
  by_cases hdigit : Digit c
  · -- a point is no digit, so that one of the two kinds is out
    have hpoint : ∀ {ds es : List Char}, (∀ d ∈ ds ++ '.' :: es, d.isDigit = true) → False :=
      fun hall => absurd (hall '.' (by simp)) (by decide)
    rcases h.of_digit hdigit with ⟨rfl, hall⟩ | ⟨rfl, ds, es, rfl, -⟩ <;>
      rcases h'.of_digit hdigit with ⟨rfl, hall'⟩ | ⟨rfl, ds', es', heq, -⟩
    · rfl
    · exact (hpoint (heq ▸ hall)).elim
    · exact (hpoint hall').elim
    · rfl
  · have hsign := h.of_other hletter hdigit
    rw [h'.of_other hletter hdigit] at hsign
    exact (Option.some.inj hsign).symm

/-- No blank stands in a `Lexeme`. -/
theorem not_mem_blanks (h : Lexeme tag chars) {c : Char} (hc : c ∈ chars) : c ∉ blanks := by
  -- letters and digits are no blanks
  have hclass : ∀ {d : Char}, Letter d ∨ Digit d → d ∉ blanks := fun hd =>
    Segment.not_mem_blanks (p := Segment.continuesWord) (by decide) (continuesWord_eq_true_iff.2 hd)
  cases h with
  | keyword hfirst hcs | identifier hfirst hcs =>
    rcases List.mem_cons.1 hc with rfl | hc
    · exact hclass (.inl hfirst)
    · exact hclass (hcs c hc)
  | int hd hds =>
    rcases List.mem_cons.1 hc with rfl | hc
    · exact hclass (.inr hd)
    · exact hclass (.inr (hds c hc))
  | float hd hds hes =>
    rcases List.mem_cons.1 hc with rfl | hc
    · exact hclass (.inr hd)
    rcases List.mem_append.1 hc with hc | hc
    · exact hclass (.inr (hds c hc))
    rcases List.mem_cons.1 hc with rfl | hc
    · decide
    · exact hclass (.inr (hes c hc))
  | operator h => exact (not_letter_of_mem (List.mem_append_left _ h) hc).2.2
  | delimiter h => exact (not_letter_of_mem (List.mem_append_right _ h) hc).2.2

end Lexeme

/-! ### The longest lexeme -/

/-- A run of characters of one class at the front of a text is part of the longest such run. -/
theorem length_le_takeWhile {p : Char → Bool} {run text : List Char} (hrun : ∀ c ∈ run, p c = true)
    (h : run <+: text) : run.length ≤ (text.takeWhile p).length := by
  obtain ⟨rest, rfl⟩ := h
  rw [List.takeWhile_append_of_pos hrun, List.length_append]
  omega

/-- A run of characters of one class, with another character behind it, is the longest such run. -/
theorem takeWhile_eq_of_cons {p : Char → Bool} {run : List Char} {c : Char}
    (hrun : ∀ c ∈ run, p c = true) (hc : p c = false) (rest : List Char) :
    (run ++ c :: rest).takeWhile p = run ∧ (run ++ c :: rest).dropWhile p = c :: rest := by
  rw [List.takeWhile_append_of_pos hrun, List.dropWhile_append_of_pos hrun]
  simp [hc]

namespace LongestLexeme

/-- The `LongestLexeme` at the front of a text is the only one. -/
theorem unique {tag tag' : Tag} {chars chars' text : List Char} (h : LongestLexeme tag chars text)
    (h' : LongestLexeme tag' chars' text) : chars = chars' ∧ tag = tag' := by
  have hle := h.longest _ _ h'.lexeme h'.begins
  have hle' := h'.longest _ _ h.lexeme h.begins
  have hchars : chars = chars' :=
    (List.prefix_of_prefix_length_le h.begins h'.begins hle').eq_of_length
    (Nat.le_antisymm hle' hle)
  subst hchars
  exact ⟨rfl, h.lexeme.tag_unique h'.lexeme⟩

end LongestLexeme

namespace Segment

/-- What is true of a segment in front of `rest` if the text is cut by longest match. -/
def Matches (rest : List Char) : Segment → Prop
  | blank c => c ∈ blanks
  | lexeme tag chars => LongestLexeme tag chars (chars ++ rest)
  | stray cause =>
    cause.char ∉ blanks ∧ NoLexeme (cause.char :: rest) ∧ cause = strayCause cause.char

/-- A `Lexeme` at the front of a text begins with the first character of the text. -/
theorem exists_cons_of_begins {tag : Tag} {c : Char} {chars cs : List Char} (h : Lexeme tag chars)
    (hbegins : chars <+: c :: cs) : ∃ cs', chars = c :: cs' ∧ cs' <+: cs :=
  (List.prefix_cons_iff.1 hbegins).resolve_left h.ne_nil

/-- A letter with all the letters and digits behind it `Matches` as the longest word. -/
theorem matches_word {c : Char} (hc : startsWord c = true) (cs : List Char) :
    (lexeme (wordTag (c :: cs.takeWhile continuesWord)) (c :: cs.takeWhile continuesWord)).Matches
      (cs.dropWhile continuesWord) := by
  have hletter : Letter c := startsWord_eq_true_iff.1 hc
  have hinner : ∀ d ∈ cs.takeWhile continuesWord, Letter d ∨ Digit d := fun d hd =>
    continuesWord_eq_true_iff.1 (List.all_eq_true.1 List.all_takeWhile d hd)
  constructor
  case lexeme =>
    rw [wordTag]
    split
    · next hword => exact .keyword hletter hinner (contains_keywords_iff.1 hword)
    · next hword =>
      exact .identifier hletter hinner fun hmem => hword (contains_keywords_iff.2 hmem)
  case begins => exact List.prefix_append _ _
  -- another lexeme at the front is a word too, and so part of the run
  case longest =>
    intro tag' chars' h' hbegins
    rw [List.cons_append, List.takeWhile_append_dropWhile] at hbegins
    obtain ⟨cs', rfl, hcs'⟩ := exists_cons_of_begins h' hbegins
    exact Nat.succ_le_succ (length_le_takeWhile (h'.of_letter hletter).1 hcs')

/-- A digit with all the digits behind it, and with a point and more digits, `Matches` as the
longest number. -/
theorem matches_number {c : Char} (hc : c.isDigit = true) (cs : List Char) :
    (number c cs).1.Matches (number c cs).2 := by
  have hdigit : Digit c := isDigit_eq_true_iff.1 hc
  have hrun : ∀ {cs : List Char}, ∀ d ∈ cs.takeWhile Char.isDigit, Digit d := fun d hd =>
    isDigit_eq_true_iff.1 (List.all_eq_true.1 List.all_takeWhile d hd)
  -- a number with a point in it has the longest run of digits in front of the point
  have hfloat : ∀ {ds es : List Char}, ds ++ '.' :: es <+: cs → (∀ d ∈ ds, d.isDigit = true) →
      cs.takeWhile Char.isDigit = ds ∧ ∃ rest, cs.dropWhile Char.isDigit = '.' :: (es ++ rest) := by
    rintro ds es ⟨rest, rfl⟩ hds
    rw [List.append_assoc, List.cons_append]
    obtain ⟨htake, hdrop⟩ := takeWhile_eq_of_cons (c := '.') hds (by decide) (es ++ rest)
    exact ⟨htake, rest, hdrop⟩
  by_cases hpoint : (cs.dropWhile Char.isDigit).head? = some '.'
  · obtain ⟨ds, hds⟩ := List.head?_eq_some_iff.1 hpoint
    have htext : c :: (cs.takeWhile Char.isDigit ++ '.' :: ds.takeWhile Char.isDigit) ++
        ds.dropWhile Char.isDigit = c :: cs := by
      rw [List.cons_append, List.append_assoc, List.cons_append, List.takeWhile_append_dropWhile,
        ← hds, List.takeWhile_append_dropWhile]
    rw [number_of_point hds, List.cons_append]
    refine ⟨.float hdigit hrun hrun, List.prefix_append _ _, fun tag' chars' h' hbegins => ?_⟩
    rw [htext] at hbegins
    obtain ⟨cs', rfl, hcs'⟩ := exists_cons_of_begins h' hbegins
    refine Nat.succ_le_succ ?_
    rw [List.length_append]
    rcases h'.of_digit hdigit with ⟨-, hall⟩ | ⟨-, ds', es', rfl, hds', hes'⟩
    · have hle := length_le_takeWhile hall hcs'
      omega
    · obtain ⟨htake, rest, hdrop⟩ := hfloat hcs' hds'
      have hle := length_le_takeWhile hes' ⟨rest, (List.cons.inj (hds.symm.trans hdrop)).2.symm⟩
      rw [htake, List.length_append, List.length_cons, List.length_cons]
      omega
  · rw [number_of_no_point hpoint]
    refine ⟨.int hdigit hrun, List.prefix_append _ _, fun tag' chars' h' hbegins => ?_⟩
    rw [List.cons_append, List.takeWhile_append_dropWhile] at hbegins
    obtain ⟨cs', rfl, hcs'⟩ := exists_cons_of_begins h' hbegins
    rcases h'.of_digit hdigit with ⟨-, hall⟩ | ⟨-, ds', es', rfl, hds', -⟩
    · exact Nat.succ_le_succ (length_le_takeWhile hall hcs')
    · obtain ⟨-, rest, hdrop⟩ := hfloat hcs' hds'
      rw [hdrop] at hpoint
      exact absurd rfl hpoint

section

variable {c : Char} (hletter : ¬ Letter c) (hdigit : ¬ Digit c)

include hletter hdigit

/-- The `Lexeme`s that can stand at the front of a text that begins neither with a letter nor with a
digit. -/
theorem sign_of_begins {tag : Tag} {chars rest : List Char} (h : Lexeme tag chars)
    (hbegins : chars <+: c :: rest) :
    chars = [c] ∧ markTag c = some tag ∨
      ∃ d ds, rest = d :: ds ∧ chars = [c, d] ∧ pairTag c d = some tag := by
  obtain ⟨cs, rfl, hcs⟩ := exists_cons_of_begins h hbegins
  have hsign := h.of_other hletter hdigit
  rcases cs with - | ⟨d, - | ⟨e, cs⟩⟩
  · exact .inl ⟨rfl, hsign⟩
  · obtain ⟨ds, rfl⟩ := hcs
    exact .inr ⟨d, ds, rfl, rfl, hsign⟩
  · cases hsign

/-- An operator of two characters, found by `pairTag`, is the longest one, since none has three. -/
theorem matches_pair {d : Char} {tag : Tag} (htag : pairTag c d = some tag) (ds : List Char) :
    (lexeme tag [c, d]).Matches ds := by
  refine ⟨lexeme_pair htag, List.prefix_append _ _, fun tag' chars' h' hbegins => ?_⟩
  rcases sign_of_begins hletter hdigit h' hbegins with ⟨rfl, -⟩ | ⟨d', ds', -, rfl, -⟩
  · exact Nat.le_succ 1
  · exact Nat.le_refl 2

/-- A `mark` that makes no operator with the next character stands alone. -/
theorem matches_mark {rest : List Char} (hblank : c ∉ blanks)
    (hpair : ∀ d ds, rest = d :: ds → pairTag c d = none) : (mark c).Matches rest := by
  -- with no pair, any lexeme here has one character
  have hsingle : ∀ tag chars, Lexeme tag chars → chars <+: c :: rest →
      chars = [c] ∧ markTag c = some tag := by
    intro tag chars h hbegins
    refine (sign_of_begins hletter hdigit h hbegins).resolve_right ?_
    rintro ⟨d, ds, hrest, -, hsome⟩
    rw [hpair d ds hrest] at hsome
    cases hsome
  unfold mark
  split
  · next tag htag =>
    refine ⟨lexeme_mark htag, List.prefix_append _ _, fun tag' chars' h' hbegins => ?_⟩
    exact Nat.le_of_eq (congrArg List.length (hsingle tag' chars' h' hbegins).1)
  · next htag =>
    have hcause : (if c == '&' || c == '|' then LexicalCause.invalidOperator c
        else .invalidCharacter c) = strayCause c := by
      simp [strayCause]
    have hchar : (strayCause c).char = c := by
      unfold strayCause
      split <;> rfl
    show LexicalCause.char _ ∉ blanks ∧ NoLexeme (LexicalCause.char _ :: rest) ∧ _
    rw [hcause, hchar]
    refine ⟨hblank, fun tag chars h hbegins => ?_, rfl⟩
    have hsome := (hsingle tag chars h hbegins).2
    rw [htag] at hsome
    cases hsome

end

/-- The `first` segment of a text is found by longest match. -/
theorem matches_first (c : Char) (cs : List Char) : (first c cs).1.Matches (first c cs).2 := by
  unfold first
  split
  · next hblank => exact isBlank_eq_true_iff.1 hblank
  next hblank =>
  have hblank : c ∉ blanks := fun hc => hblank (isBlank_eq_true_iff.2 hc)
  split
  · next hword => exact matches_word hword cs
  next hword =>
  have hletter : ¬ Letter c := fun hc => hword (startsWord_eq_true_iff.2 hc)
  split
  · next hdigit => exact matches_number hdigit cs
  next hdigit =>
  have hdigit : ¬ Digit c := fun hc => hdigit (isDigit_eq_true_iff.2 hc)
  split
  · next d ds =>
    split
    · next tag htag => exact matches_pair hletter hdigit htag ds
    · next htag =>
      refine matches_mark hletter hdigit hblank fun d' ds' heq => ?_
      obtain ⟨rfl, -⟩ := List.cons.inj heq
      exact htag
  · exact matches_mark hletter hdigit hblank fun _ _ heq => by cases heq

/-- The `segments` of a text are what longest match finds in it. -/
theorem longestMatch_segments (before rest : List Char) :
    LongestMatch before rest ((located (Pos.behind before) (segments rest)).filterMap item?) := by
  -- a segment takes at least one character, so the rest is shorter
  induction hn : rest.length using Nat.strongRecOn generalizing before rest with
  | ind n ih =>
    cases rest with
    | nil => exact .done
    | cons c cs =>
      have hlt : (first c cs).2.length < n := hn ▸ length_first_lt c cs
      have hrest := ih _ hlt (before ++ (first c cs).1.text) (first c cs).2 rfl
      have hmatches := matches_first c cs
      rw [segments_cons, located_cons, Pos.after_behind, ← text_first_append c cs]
      cases hs : (first c cs).1 with
      | blank b =>
        rw [hs] at hrest hmatches
        exact .blank hmatches hrest
      | lexeme tag chars =>
        rw [hs] at hrest hmatches
        have htext : (String.ofList chars).toList = chars := String.toList_ofList
        have hsplit : (lexeme tag chars).text ++ (first c cs).2 =
            (String.ofList chars).toList ++ (first c cs).2 := by
          rw [htext]
          rfl
        refine .token (t := ⟨tag, String.ofList chars, Pos.behind before⟩) hsplit rfl ?_ ?_
        · rw [htext]
          exact hmatches
        · rw [htext]
          exact hrest
      | stray cause =>
        rw [hs] at hrest hmatches
        obtain ⟨hblank, hnone, hcause⟩ := hmatches
        exact .stray (c := cause.char) (f := ⟨cause, Pos.behind before⟩) hblank rfl hnone hcause
          hrest

end Segment

/-! ### Longest match -/

/-- `LongestMatch` leaves no choice. -/
theorem LongestMatch.unique {before rest : List Char} {items items' : List Item}
    (h : LongestMatch before rest items) (h' : LongestMatch before rest items') :
    items = items' := by
  -- a lexeme does not begin with a blank
  have hfirst : ∀ {t : Token} {c : Char} {cs : List Char}, LongestLexeme t.tag t.text.toList
      (c :: cs) → c ∉ blanks := by
    intro t c cs hlongest
    obtain ⟨cs', heq, -⟩ := Segment.exists_cons_of_begins hlongest.lexeme hlongest.begins
    exact hlongest.lexeme.not_mem_blanks (heq ▸ List.mem_cons_self)
  induction h generalizing items' with
  | done =>
    cases h' with
    | done => rfl
    | token _ _ hlongest => exact absurd (List.prefix_nil.1 hlongest.begins) hlongest.lexeme.ne_nil
  | blank hc _ ih =>
    cases h' with
    | blank _ others => exact ih others
    | token _ _ hlongest => exact absurd hc (hfirst hlongest)
    | stray hc' => exact absurd hc hc'
  | @token before rest cs items t hsplit hpos hlongest _ ih =>
    cases h' with
    | done => exact absurd (List.prefix_nil.1 hlongest.begins) hlongest.lexeme.ne_nil
    | blank hc => exact absurd hc (hfirst hlongest)
    | @token _ _ cs' items' t' hsplit' hpos' hlongest' others' =>
      obtain ⟨hchars, htag⟩ := hlongest.unique hlongest'
      have ht : t = t' := by
        obtain ⟨tag, text, pos⟩ := t
        obtain ⟨tag', text', pos'⟩ := t'
        rw [Token.mk.injEq]
        exact ⟨htag, String.toList_injective hchars, hpos.trans hpos'.symm⟩
      subst ht
      obtain rfl : cs = cs' := List.append_cancel_left (hsplit.symm.trans hsplit')
      rw [ih others']
    | stray _ _ hnone => exact absurd hlongest.begins (hnone _ _ hlongest.lexeme)
  | @stray before cs items c f hc hpos hnone hcause _ ih =>
    cases h' with
    | blank hc' => exact absurd hc' hc
    | token _ _ hlongest => exact absurd hlongest.begins (hnone _ _ hlongest.lexeme)
    | @stray _ _ items' _ f' _ hpos' _ hcause' others' =>
      have hf : f = f' := by
        obtain ⟨cause, pos⟩ := f
        obtain ⟨cause', pos'⟩ := f'
        rw [Finding.mk.injEq]
        exact ⟨hcause.trans hcause'.symm, hpos.trans hpos'.symm⟩
      rw [hf, ih others']

/-- In a `LongestMatch`, the cause of a finding is told by the character alone: an unfinished
operator, or a character that nothing begins with. -/
theorem LongestMatch.cause_eq {before rest : List Char} {items : List Item}
    (h : LongestMatch before rest items) :
    ∀ f ∈ items.filterMap Item.finding?, ∃ c, f.cause = strayCause c := by
  induction h with
  | done => simp
  | blank _ _ ih => exact ih
  | token _ _ _ _ ih => exact ih
  | stray _ _ _ hcause _ ih => exact List.forall_mem_cons.2 ⟨⟨_, hcause⟩, ih⟩

theorem message_strayCause (c : Char) :
    (strayCause c).char = c ∧ (strayCause c).message =
      if c ∈ ['&', '|'] then s!"Invalid operator: {c}" else s!"Invalid character: {c}" := by
  unfold strayCause
  split <;> exact ⟨rfl, rfl⟩

/-- What is scanned in a text, in the order of the text. -/
def scanned (source : String) : List Item :=
  (Segment.located Pos.start (Segment.segments source.toList)).filterMap Segment.item?

/-- A `scan` gives the tokens and the findings among the items, with an end token behind them. -/
theorem scan_eq_scanned (source : String) :
    scan source =
      ((scanned source).filterMap Item.token? ++ [Token.endAt (Pos.behind source.toList)],
      (scanned source).filterMap Item.finding?) := by
  rw [scan_eq_located, scanned, List.filterMap_filterMap, List.filterMap_filterMap,
    funext Segment.item?_bind_token?, funext Segment.item?_bind_finding?, Pos.start_eq_behind,
    Pos.after_behind, List.nil_append]

/-- Longest match finds what is `scanned` and nothing else. -/
theorem longestMatch_iff {source : String} {items : List Item} :
    LongestMatch [] source.toList items ↔ items = scanned source := by
  have hscanned : LongestMatch [] source.toList (scanned source) :=
    Segment.longestMatch_segments [] source.toList
  exact ⟨fun h => h.unique hscanned, fun h => h ▸ hscanned⟩

/-- A text is cut by `LongestMatch`, in the one way there is: at each place a blank is skipped, or
the `LongestLexeme` is taken as a token with the tag of its kind, or, if no lexeme begins there, the
character is reported. The tokens and the findings of a `scan` are what is found so, with one end
token behind the tokens. An ampersand and a bar are reported as operators, and every other character
as a character. -/
theorem scan_longest_match (source : String) :
    ∃ items : List Item,
      (∀ items', LongestMatch [] source.toList items' ↔ items' = items) ∧
        (scan source).1 = items.filterMap Item.token? ++ [⟨.eof, "", Pos.behind source.toList⟩] ∧
        (scan source).2 = items.filterMap Item.finding? ∧
        ∀ f ∈ (scan source).2, f.cause.message =
          if f.cause.char ∈ ['&', '|'] then s!"Invalid operator: {f.cause.char}"
          else s!"Invalid character: {f.cause.char}" := by
  refine ⟨scanned source, fun _ => longestMatch_iff, by rw [scan_eq_scanned]; rfl,
    by rw [scan_eq_scanned], fun f hf => ?_⟩
  rw [scan_eq_scanned] at hf
  obtain ⟨c, hcause⟩ := (longestMatch_iff.2 rfl).cause_eq f hf
  rw [hcause, (message_strayCause c).1]
  exact (message_strayCause c).2

/-- A number takes one point and not the second, three signs of equality are two operators, and a
lone ampersand is none. -/
theorem scan_longest_match_points :
    ∃ items, LongestMatch [] "1.5.x===&".toList items ∧
      (items.filterMap Item.token?).map (fun t => (t.tag, t.text)) =
        [(.floatLiteral, "1.5"), (.identifier, "x"), (.equal, "=="), (.assign, "=")] ∧
      (scan "1.5.x===&").2.map (fun f => f.cause.message) =
        ["Invalid character: .", "Invalid operator: &"] := by
  obtain ⟨items, hmatch, htokens, -, -⟩ := scan_longest_match "1.5.x===&"
  have hitems : items.filterMap Item.token? = (scan "1.5.x===&").1.dropLast := by
    rw [htokens, List.dropLast_concat]
  refine ⟨items, (hmatch items).2 rfl, ?_, by decide +kernel⟩
  rw [hitems]
  decide +kernel

end Tricode
