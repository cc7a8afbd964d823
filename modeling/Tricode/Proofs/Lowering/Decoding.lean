import Tricode.Proofs.Lowering.Spelling

/-!
# Reading instructions back

The line of an instruction is a row of words with single spaces between them, and no word of an
instruction that is spelled with lexemes has a space in it. So the words can be told from the line
(`Instr.wordsOf_line`), and `Instr.ofWords?` tells the instruction from the words. A name may be
spelled like the first word of an instruction. But a line that begins with a name goes on with the
sign of an assignment, and this is no name, so it never follows the first word of an instruction.
Within the other words, a colon or a comma behind a name and an operator in front of an operand are
no part of a lexeme.

It follows that the code of a source text can be read from its lines (`ofLine?_line_of_source`),
whatever names the text has chosen.
-/

namespace Tricode

/-! ### Words -/

/-- The words of a line. -/
def wordsOf (line : String) : List String :=
  (line.toList.splitOn ' ').map String.ofList

namespace Instr

/-- The words of an instruction. -/
def words : Instr → List String
  | functionStart name => ["FUNCTION", name ++ ":"]
  | functionEnd name => ["END_FUNCTION", name]
  | copy dest value => [dest, "=", value]
  | declare name => ["DECLARE", name]
  | jumpUnless cond target => ["IF_FALSE", cond, "GOTO", labelName target]
  | jump target => ["GOTO", labelName target]
  | label n => [labelName n ++ ":"]
  | ret (some value) => ["RETURN", value]
  | ret none => ["RETURN"]
  | param value => ["PARAM", value]
  | binary dest left op right => [tempName dest, "=", left, op, right]
  | unary dest op operand => [tempName dest, "=", op ++ operand]
  | call dest callee count => [tempName dest, "=", "CALL", callee ++ ",", toString count]
  | verbatim line => [line]

/-- The line of an instruction is its `words` with blanks between them. -/
theorem toList_line (i : Instr) :
    i.line.toList = [' '].intercalate (i.words.map String.toList) := by
  cases i with
  | ret value => cases value <;> simp [line, words, toString, List.intercalate_cons_cons]
  | _ => simp [line, words, toString, List.intercalate_cons_cons]

end Instr

/-- There is no space in the text. -/
def Solid (text : String) : Prop :=
  ' ' ∉ text.toList

/-- `Solid` texts, one behind the other. -/
theorem solid_append {text text' : String} (h : Solid text) (h' : Solid text') :
    Solid (text ++ text') := by
  rw [Solid, String.toList_append, List.mem_append]
  exact not_or.2 ⟨h, h'⟩

theorem Lexeme.solid {tag : Tag} {text : String} (h : Lexeme tag text.toList) : Solid text :=
  fun hmem => h.not_mem_blanks hmem (by decide)

/-- No `IsOperand` has a blank in it. -/
theorem IsOperand.solid {text : String} (h : IsOperand text) : Solid text := by
  rcases h with h | h | h | h
  · exact h.solid
  · exact h.solid
  · exact h.solid
  · have hwords : ∀ word ∈ Parser.truthWords, ' ' ∉ word.toList := by decide
    exact hwords text h

theorem solid_toString (n : Nat) : Solid (toString n) := by
  rw [Solid, toList_toString]
  intro hmem
  exact absurd (Nat.isDigit_of_mem_toDigits (by decide) (by decide) hmem) (by decide)

theorem solid_labelName (n : Nat) : Solid (labelName n) :=
  solid_append (by unfold Solid; decide) (solid_toString n)

namespace Instr

/-- No word of an instruction whose parts are `Spelled` has a blank in it, and none is empty. -/
theorem solid_of_mem_words {i : Instr} (h : i.Spelled) : ∀ w ∈ i.words, Solid w := by
  -- the words of the instructions themselves, and the operators, are known
  have hwords :
      ∀ w ∈ ["FUNCTION", "END_FUNCTION", "DECLARE", "IF_FALSE", "GOTO", "RETURN", "PARAM", "CALL",
      "=", ":", ","], Solid w := by
    unfold Solid
    decide
  have hbinary : ∀ op ∈ Typing.binaryOps, Solid op := by
    unfold Solid
    decide
  have hunary : ∀ op ∈ Typing.unaryOps, Solid op := by
    unfold Solid
    decide
  have htemp : ∀ n, Solid (tempName n) := fun n => (isName_tempName n).solid
  simp only [List.forall_mem_cons] at hwords
  cases i with
  | ret value =>
    cases value with
    | none => simp [words, hwords]
    | some v => simp [words, hwords, (h v rfl).solid]
  | functionStart name => simp [words, hwords, solid_append, h.solid]
  | functionEnd name => simp [words, hwords, h.solid]
  | copy dest value => simp [words, hwords, h.1.solid, h.2.solid]
  | declare name => simp [words, hwords, h.solid]
  | jumpUnless cond target => simp [words, hwords, IsOperand.solid h, solid_labelName]
  | jump target => simp [words, hwords, solid_labelName]
  | label n => simp [words, hwords, solid_append, solid_labelName]
  | param value => simp [words, hwords, IsOperand.solid h]
  | binary dest left op right =>
    simp [words, hwords, htemp, h.1.solid, hbinary op h.2.1, h.2.2.solid]
  | unary dest op operand => simp [words, hwords, htemp, solid_append, hunary op h.1, h.2.solid]
  | call dest callee count =>
    simp [words, hwords, htemp, solid_append, h.solid, -Nat.toString_eq_repr, solid_toString]
  | verbatim line => exact h.elim

/-- `wordsOf` finds the words again between the blanks of the line. -/
theorem wordsOf_line {i : Instr} (h : i.Spelled) : wordsOf i.line = i.words := by
  have hsolid : ∀ w ∈ i.words.map String.toList, ' ' ∉ w :=
    List.forall_mem_map.2 (solid_of_mem_words h)
  have hne : i.words.map String.toList ≠ [] := by
    cases i with
    | ret value => cases value <;> simp [words]
    | _ => simp [words]
  rw [wordsOf, toList_line, List.splitOn_intercalate ' ' hsolid hne, List.map_map]
  simp

end Instr

/-! ### Parts of words -/

/-- The number that the text writes. -/
def number? (text : String) : Option Nat :=
  let n := Nat.ofDigitChars 10 text.toList 0
  if toString n = text then some n else none

/-- The number behind the letter of a temporary or of a label. -/
def numbered? (letter : Char) (text : String) : Option Nat :=
  match text.toList with
  | [] => none
  | c :: cs => if c = letter then number? (String.ofList cs) else none

/-- What stands in front of a mark at the end of the text. -/
def marked? (mark : Char) (text : String) : Option String :=
  if text.toList.getLast? = some mark then some (String.ofList text.toList.dropLast) else none

/-- The operator in front of an operand, and the operand. -/
def signed? (text : String) : Option (String × String) :=
  match text.toList with
  | [] => none
  | c :: cs => if c = '-' ∨ c = '!' then some (String.ofList [c], String.ofList cs) else none

/-- `number?` reads a number from its digits. -/
theorem number?_toString (n : Nat) : number? (toString n) = some n := by
  rw [number?, toList_toString, Nat.ofDigitChars_ten_toDigits, if_pos rfl]

/-- `numbered?` reads the number of a temporary from its name. -/
theorem numbered?_tempName (n : Nat) : numbered? 't' (tempName n) = some n := by
  rw [numbered?, toList_tempName]
  dsimp only
  rw [if_pos rfl, ← toList_toString, String.ofList_toList, number?_toString]

/-- `numbered?` reads the number of a label from its name. -/
theorem numbered?_labelName (n : Nat) : numbered? 'L' (labelName n) = some n := by
  have hlist : (labelName n).toList = 'L' :: (toString n).toList := by
    simp [labelName, toString]
  rw [numbered?, hlist]
  dsimp only
  rw [if_pos rfl, String.ofList_toList, number?_toString]

/-- `marked?` takes a mark at the end of a word off. -/
theorem marked?_eq_some {mark : Char} {text word : String}
    (h : word.toList = text.toList ++ [mark]) :
    marked? mark word = some text := by
  rw [marked?, h, List.getLast?_concat, if_pos rfl, List.dropLast_concat, String.ofList_toList]

theorem marked?_eq_none {mark : Char} {word : String} (h : mark ∉ word.toList) :
    marked? mark word = none := by
  rw [marked?, if_neg]
  intro hlast
  exact h (List.mem_of_getLast? hlast)

/-- A name and a number begin with a `Letter` or a `Digit`. -/
theorem Lexeme.exists_cons {tag : Tag} {chars : List Char} (h : Lexeme tag chars)
    (htag : tag ∈ [.identifier, .intLiteral, .floatLiteral]) :
    ∃ c cs, chars = c :: cs ∧ (Letter c ∨ Digit c) := by
  -- operators and delimiters have other tags
  have hsigns : ∀ sign ∈ operators ++ delimiters,
      sign.2 ∉ [Tag.identifier, .intLiteral, .floatLiteral] := by decide
  cases h with
  | keyword hc _ _ => exact ⟨_, _, rfl, .inl hc⟩
  | identifier hc _ _ => exact ⟨_, _, rfl, .inl hc⟩
  | int hd _ => exact ⟨_, _, rfl, .inr hd⟩
  | float hd _ _ => exact ⟨_, _, rfl, .inr hd⟩
  | operator hsign => exact absurd htag (hsigns _ (List.mem_append_left _ hsign))
  | delimiter hsign => exact absurd htag (hsigns _ (List.mem_append_right _ hsign))

/-- An operand begins with a `Letter` or a `Digit`. -/
theorem IsOperand.exists_cons {text : String} (h : IsOperand text) :
    ∃ c cs, text.toList = c :: cs ∧ (Letter c ∨ Digit c) := by
  rcases h with h | h | h | h
  · exact Lexeme.exists_cons h (by decide)
  · exact Lexeme.exists_cons h (by decide)
  · exact Lexeme.exists_cons h (by decide)
  · simp only [Parser.truthWords, List.mem_cons, List.not_mem_nil, or_false] at h
    rcases h with rfl | rfl <;> exact ⟨_, _, rfl, by decide⟩

/-- `signed?` finds no sign in front of an operand. -/
theorem signed?_eq_none {text : String} (h : IsOperand text) : signed? text = none := by
  obtain ⟨c, cs, hlist, hc⟩ := h.exists_cons
  have hminus : c ≠ '-' := by
    rintro rfl
    exact absurd hc (by decide)
  have hnot : c ≠ '!' := by
    rintro rfl
    exact absurd hc (by decide)
  rw [signed?, hlist]
  exact if_neg (not_or.2 ⟨hminus, hnot⟩)

/-- `signed?` takes an operator in front of an operand off. -/
theorem signed?_append {op : String} (h : op ∈ Typing.unaryOps) (operand : String) :
    signed? (op ++ operand) = some (op, operand) := by
  simp only [Typing.unaryOps, List.mem_cons, List.not_mem_nil, or_false] at h
  rcases h with rfl | rfl <;> simp [signed?]

/-! ### Instructions of words -/

namespace Instr

/-- The instruction of one word. -/
def ofWord? (word : String) : Option Instr :=
  match marked? ':' word with
  | some name => (numbered? 'L' name).map .label
  | none => if word = "RETURN" then some (.ret none) else none

/-- The instruction of a first word and what it is about. -/
def ofPair? (word text : String) : Option Instr :=
  match word with
  | "FUNCTION" => (marked? ':' text).map .functionStart
  | "END_FUNCTION" => some (.functionEnd text)
  | "DECLARE" => some (.declare text)
  | "GOTO" => (numbered? 'L' text).map .jump
  | "RETURN" => some (.ret (some text))
  | "PARAM" => some (.param text)
  | _ => none

/-- The instruction that sets its destination to an operand, or to an operator and an operand. -/
def ofValue? (dest value : String) : Option Instr :=
  match signed? value with
  | some (op, operand) => (numbered? 't' dest).map fun n => .unary n op operand
  | none => some (.copy dest value)

/-- The instruction that sets its destination to an operation or to a call. -/
def ofOperation? (dest first second third : String) : Option Instr := do
  let n ← numbered? 't' dest
  match marked? ',' second with
  | some callee => if first = "CALL" then (number? third).map (.call n callee) else none
  | none => some (.binary n first second third)

/-- The instruction of these words. -/
def ofWords? : List String → Option Instr
  | [word] => ofWord? word
  | [word, text] => ofPair? word text
  | [dest, sign, value] => if sign = "=" then ofValue? dest value else none
  | [word, cond, goto, text] =>
    if word = "IF_FALSE" ∧ goto = "GOTO" then (numbered? 'L' text).map (.jumpUnless cond) else none
  | [dest, sign, first, second, third] =>
    if sign = "=" then ofOperation? dest first second third else none
  | _ => none

/-- The instruction of a line. -/
def ofLine? (line : String) : Option Instr :=
  ofWords? (wordsOf line)

/-- An instruction whose parts are `Spelled` is read from its words. -/
theorem ofWords?_words {i : Instr} (h : i.Spelled) : ofWords? i.words = some i := by
  cases i with
  | functionStart name =>
    show (marked? ':' (name ++ ":")).map functionStart = _
    rw [marked?_eq_some (String.toList_append)]
    rfl
  | functionEnd name => rfl
  | copy dest value =>
    show ofValue? dest value = _
    rw [ofValue?, signed?_eq_none h.2]
  | declare name => rfl
  | jumpUnless cond target =>
    show (numbered? 'L' (labelName target)).map (jumpUnless cond) = _
    rw [numbered?_labelName]
    rfl
  | jump target =>
    show (numbered? 'L' (labelName target)).map jump = _
    rw [numbered?_labelName]
    rfl
  | label n =>
    show ofWord? (labelName n ++ ":") = _
    rw [ofWord?, marked?_eq_some (String.toList_append)]
    show (numbered? 'L' (labelName n)).map label = _
    rw [numbered?_labelName]
    rfl
  | ret value =>
    cases value with
    | none => decide
    | some v => rfl
  | param value => rfl
  | binary dest left op right =>
    -- no operator has the comma that a call has behind its callee
    have hops : ∀ op ∈ Typing.binaryOps, ',' ∉ op.toList := by decide
    show ofOperation? (tempName dest) left op right = _
    rw [ofOperation?, numbered?_tempName, marked?_eq_none (hops op h.2.1)]
    rfl
  | unary dest op operand =>
    show ofValue? (tempName dest) (op ++ operand) = _
    rw [ofValue?, signed?_append h.1]
    dsimp only
    rw [numbered?_tempName]
    rfl
  | call dest callee count =>
    show ofOperation? (tempName dest) "CALL" (callee ++ ",") (toString count) = _
    rw [ofOperation?, numbered?_tempName, marked?_eq_some (String.toList_append)]
    show (number? (toString count)).map _ = _
    rw [number?_toString]
    rfl
  | verbatim line => exact h.elim

/-- An instruction whose parts are `Spelled` is read from its line. -/
theorem ofLine?_line {i : Instr} (h : i.Spelled) : ofLine? i.line = some i := by
  rw [ofLine?, wordsOf_line h, ofWords?_words h]

end Instr

/-- The `code` of a program is what lowering has emitted. -/
theorem eq_log_of_generate {p : Program} {code : List Instr} (h : generate p = .ok code) :
    code = (Lowering.lower p.toNode .zero).log := by
  rw [generate] at h
  cases hvalue : (Lowering.lower p.toNode .zero).value with
  | error e =>
    rw [hvalue] at h
    cases h
  | ok u =>
    rw [hvalue] at h
    exact (Except.ok.inj h).symm

/-- Every instruction that is `Spelled`, so that its names, operands and operator are lexemes, is
read from its line by `ofLine?` as it is, and every line that is emitted for a source text is the
line of such an instruction. So the `code` of a text can be read from its lines. -/
theorem ofLine?_line_of_source :
    (∀ i : Instr, i.Spelled → Instr.ofLine? i.line = some i) ∧
      ∀ source : String,
        (∀ i ∈ (Lowering.lower (parse (scan source).1).1.toNode .zero).log, i.Spelled) ∧
          ∀ code, generate (parse (scan source).1).1 = .ok code →
            (code.map Instr.line).map Instr.ofLine? = code.map some := by
  refine ⟨fun i => Instr.ofLine?_line, fun source =>
    ⟨spelled_lower_parse source, fun code hcode => ?_⟩⟩
  have hspelled : ∀ i ∈ code, i.Spelled := by
    rw [eq_log_of_generate hcode]
    exact spelled_lower_parse source
  rw [List.map_map]
  exact List.map_congr_left fun i hi => Instr.ofLine?_line (hspelled i hi)

/-- A text with the words of the code for its names. -/
def codeWords : String :=
  "int FUNCTION(int t0, bool L0) \x7b int RETURN = PARAM(-t0, true); float DECLARE;" ++
    "GOTO = CALL - RETURN; if (IF_FALSE) \x7b return 1.5; \x7d else \x7b return; \x7d" ++
    "while (END_FUNCTION) \x7b CALL(L0); \x7d \x7d"

/-- Its `code` has all twelve instructions, and they can be read from their lines. -/
theorem ofLine?_line_of_source_codeWords :
    ∃ code, generate (parse (scan codeWords).1).1 = .ok code ∧
      code.map Instr.line =
        ["FUNCTION FUNCTION:", "t0 = -t0", "PARAM t0", "PARAM true", "t1 = CALL PARAM, 2",
          "RETURN = t1", "DECLARE DECLARE", "t2 = CALL - RETURN", "GOTO = t2",
          "IF_FALSE IF_FALSE GOTO L0", "RETURN 1.5", "GOTO L1", "L0:", "RETURN", "L1:", "L2:",
          "IF_FALSE END_FUNCTION GOTO L3", "PARAM L0", "t3 = CALL CALL, 1", "GOTO L2", "L3:",
          "END_FUNCTION FUNCTION"] ∧
      (code.map Instr.line).map Instr.ofLine? = code.map some ∧
      Instr.ofLine? "t2 = CALL - RETURN" = some (.binary 2 "CALL" "-" "RETURN") ∧
      Instr.ofLine? "t3 = CALL CALL, 1" = some (.call 3 "CALL" 1) := by
  obtain ⟨hall, hsource⟩ := ofLine?_line_of_source
  obtain ⟨hspelled, hcode⟩ := hsource codeWords
  have hgenerate : generate (parse (scan codeWords).1).1 = .ok
      [.functionStart "FUNCTION", .unary 0 "-" "t0", .param "t0", .param "true", .call 1 "PARAM" 2,
        .copy "RETURN" "t1", .declare "DECLARE", .binary 2 "CALL" "-" "RETURN", .copy "GOTO" "t2",
        .jumpUnless "IF_FALSE" 0, .ret (some "1.5"), .jump 1, .label 0, .ret none, .label 1,
        .label 2, .jumpUnless "END_FUNCTION" 3, .param "L0", .call 3 "CALL" 1, .jump 2, .label 3,
        .functionEnd "FUNCTION"] := by
    decide +kernel
  -- what is known of the emitted lines is known of this code
  rw [← eq_log_of_generate hgenerate] at hspelled
  exact ⟨_, hgenerate, rfl, hcode _ hgenerate, hall (.binary 2 "CALL" "-" "RETURN")
    (hspelled _ (by simp)), hall (.call 3 "CALL" 1) (hspelled _ (by simp))⟩

end Tricode
