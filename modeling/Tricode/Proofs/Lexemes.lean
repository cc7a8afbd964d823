import Tricode.Proofs.Grammar.Program
import Tricode.Proofs.Machine
import Tricode.Proofs.Token.Steps

/-!
# How names and literals are spelled

The text of a scanned token shows what it is: an identifier is not spelled like a literal, and a
literal is spelled like one of its kind (`scan_eq`). A program that is parsed from such tokens has
its literals and the names of its variables from them (`Grammar.Function.spelled`), so that an
operand of its code is read back as what it was.
-/

namespace Tricode

/-- What the text of a token says about its kind. -/
structure Token.Spelled (t : Token) : Prop where
  identifier : t.tag = .identifier → literalKind? t.text = none
  int : t.tag = .intLiteral → literalKind? t.text = some .int
  float : t.tag = .floatLiteral → literalKind? t.text = some .float

/-! ### Scanning -/

namespace Segment

/-- What a segment says about the token it becomes. -/
def Spelled : Segment → Prop
  | lexeme tag chars => tag ≠ .eof ∧ Token.Spelled ⟨tag, String.ofList chars, Pos.start⟩
  | _ => True

/-- `literalKind?` takes what begins with a digit for a literal, and a point decides of which
kind. -/
theorem literalKind?_ofList {c : Char} {cs : List Char} (hc : c.isDigit = true) :
    literalKind? (String.ofList (c :: cs)) = some (if '.' ∈ cs then .float else .int) := by
  -- the words for truth values do not begin with a digit
  have hword : ¬ (String.ofList (c :: cs) = "true" ∨ String.ofList (c :: cs) = "false") := by
    rintro (h | h)
    · have hlist := congrArg String.toList h
      rw [String.toList_ofList] at hlist
      obtain rfl : c = 't' := (List.cons.inj hlist).1
      exact absurd hc (by decide)
    · have hlist := congrArg String.toList h
      rw [String.toList_ofList] at hlist
      obtain rfl : c = 'f' := (List.cons.inj hlist).1
      exact absurd hc (by decide)
  rw [literalKind?, if_neg hword, String.toList_ofList]
  simp only [hc, if_true]

/-- A character that `startsWord` is no digit. -/
theorem isDigit_eq_false_of_startsWord {c : Char} (hc : startsWord c = true) :
    c.isDigit = false := by
  rw [Bool.eq_false_iff]
  intro hdigit
  change (decide ('A'.val ≤ c.val ∧ c.val ≤ 'Z'.val) ||
    decide ('a'.val ≤ c.val) && decide (c.val ≤ 'z'.val) || c == '_') = true at hc
  simp only [Char.isDigit, Bool.or_eq_true, Bool.and_eq_true, decide_eq_true_eq, beq_iff_eq,
    ge_iff_le, UInt32.le_iff_toNat_le] at hc hdigit
  obtain ⟨hlow, hhigh⟩ := hdigit
  -- letters and the underscore lie behind the digits
  rcases hc with (⟨hc, -⟩ | ⟨hc, -⟩) | rfl
  · exact absurd (Nat.le_trans hc hhigh) (by decide)
  · exact absurd (Nat.le_trans hc hhigh) (by decide)
  · exact absurd hhigh (by decide)

/-- A word is a keyword, or an identifier that is `Spelled` like no literal. -/
theorem spelled_word {c : Char} (hc : startsWord c = true) (cs : List Char) :
    Spelled (lexeme (wordTag (c :: cs)) (c :: cs)) := by
  have hdigit := isDigit_eq_false_of_startsWord hc
  rw [wordTag]
  split
  · exact ⟨by decide, nofun, nofun, nofun⟩
  · next hkeyword =>
    -- the words for truth values are keywords
    refine ⟨by decide, fun _ => ?_, nofun, nofun⟩
    have hword : ¬ (String.ofList (c :: cs) = "true" ∨ String.ofList (c :: cs) = "false") := by
      rintro (h | h) <;> simp [h, keywords] at hkeyword
    rw [literalKind?, if_neg hword, String.toList_ofList]
    simp only [hdigit, Bool.false_eq_true, if_false]

/-- A number is `Spelled` like the literal that its tag says. -/
theorem spelled_number {c : Char} (hc : c.isDigit = true) (cs : List Char) :
    (number c cs).1.Spelled := by
  unfold number
  split
  · refine ⟨by decide, nofun, nofun, fun _ => ?_⟩
    rw [List.cons_append, literalKind?_ofList hc, if_pos (by simp)]
  · refine ⟨by decide, nofun, fun _ => ?_, nofun⟩
    rw [literalKind?_ofList hc, if_neg (not_mem_takeWhile (by decide) cs)]

/-- A token is `Spelled` if its tag says nothing about the text. -/
theorem spelled_of_tag {tag : Tag} (htag : tag ∉ [.eof, .identifier, .intLiteral, .floatLiteral])
    (chars : List Char) : Spelled (lexeme tag chars) := by
  simp only [List.mem_cons, List.not_mem_nil, or_false, not_or] at htag
  obtain ⟨heof, hidentifier, hint, hfloat⟩ := htag
  exact ⟨heof, fun h => absurd h hidentifier, fun h => absurd h hint, fun h => absurd h hfloat⟩

theorem markTag_not_mem {c : Char} {tag : Tag} (h : markTag c = some tag) :
    tag ∉ [.eof, .identifier, .intLiteral, .floatLiteral] := by
  unfold markTag at h
  split at h <;> cases h <;> decide

theorem pairTag_not_mem {c d : Char} {tag : Tag} (h : pairTag c d = some tag) :
    tag ∉ [.eof, .identifier, .intLiteral, .floatLiteral] := by
  unfold pairTag at h
  split at h <;> cases h <;> decide

theorem spelled_mark (c : Char) : (mark c).Spelled := by
  unfold mark
  split
  · next tag h => exact spelled_of_tag (markTag_not_mem h) _
  · trivial

/-- The `first` segment of a text is `Spelled` like what it is. -/
theorem spelled_first (c : Char) (cs : List Char) : (first c cs).1.Spelled := by
  -- the cases are those of `first`: a blank, a word, a number, two characters, one
  unfold first
  split
  · trivial
  split
  · next hword => exact spelled_word hword _
  split
  · next hdigit => exact spelled_number hdigit cs
  split
  · split
    · next tag h => exact spelled_of_tag (pairTag_not_mem h) _
    · exact spelled_mark c
  · exact spelled_mark c

/-- `located` changes no segment. -/
theorem mem_of_mem_located {p q : Pos} {s : Segment} {ss : List Segment}
    (h : (q, s) ∈ located p ss) :
    s ∈ ss := by
  induction ss generalizing p with
  | nil => simp at h
  | cons s' ss ih =>
    rw [located_cons, List.mem_cons] at h
    rcases h with h | h
    · simp [(Prod.mk.inj h).2]
    · simp [ih h]

/-- The tokens of a text are the segments among its `located` ones that are a `lexeme`. -/
theorem exists_lexeme_of_mem_tokens {p : Pos} {ss : List Segment} {t : Token}
    (h : t ∈ (located p ss).filterMap token?) :
    ∃ chars, lexeme t.tag chars ∈ ss ∧ t.text = String.ofList chars := by
  obtain ⟨⟨q, s⟩, hs, htoken⟩ := List.mem_filterMap.1 h
  cases s with
  | blank c => simp [token?] at htoken
  | stray cause => simp [token?] at htoken
  | lexeme tag chars =>
    obtain rfl : ⟨tag, String.ofList chars, q⟩ = t := by simpa [token?] using htoken
    exact ⟨chars, mem_of_mem_located hs, rfl⟩

end Segment

/-- A scanned token is the end token, or it comes from a `Segment` and has what all first segments
have. -/
theorem exists_of_mem_scan {P : Segment → Prop} (hfirst : ∀ c cs, P (Segment.first c cs).1)
    {source : String} {t : Token} (h : t ∈ (scan source).1) :
    t.tag = .eof ∨ ∃ chars, t.text = String.ofList chars ∧ P (.lexeme t.tag chars) := by
  rw [scan_eq_located, List.mem_append, List.mem_singleton] at h
  rcases h with h | rfl
  · obtain ⟨chars, hsegment, htext⟩ := Segment.exists_lexeme_of_mem_tokens h
    exact .inr ⟨chars, htext, Segment.forall_mem_segments hfirst _ _ hsegment⟩
  · exact .inl rfl

/-- `scan` gives tokens that are `Spelled` like what they are, and an end token behind them. -/
theorem scan_eq (source : String) :
    ∃ ts stop, (scan source).1 = ts ++ [stop] ∧ stop.tag = .eof ∧
      ∀ t ∈ ts, t.tag ≠ .eof ∧ t.Spelled := by
  rw [scan_eq_located]
  refine ⟨_, _, rfl, rfl, fun t ht => ?_⟩
  obtain ⟨chars, hsegment, htext⟩ := Segment.exists_lexeme_of_mem_tokens ht
  have hspelled := Segment.forall_mem_segments Segment.spelled_first _ _ hsegment
  rw [Segment.Spelled, ← htext] at hspelled
  exact ⟨hspelled.1, hspelled.2.identifier, hspelled.2.int, hspelled.2.float⟩

/-! ### Parsing -/

/-- If the expression is a literal, it is spelled like one of its kind. -/
def Expr.LiteralSpelled : Expr → Prop
  | literal kind text _ => literalKind? text = some kind
  | _ => True

/-- The literals in an expression are spelled like literals of their kinds. -/
def Expr.LiteralsSpelled (e : Expr) : Prop :=
  ∀ part ∈ e.parts, part.LiteralSpelled

namespace Grammar

mutual

/-- The literals of a `Phrase` of `Spelled` tokens are spelled. -/
theorem Phrase.literalsSpelled {n : Nat} {c : Category} {w : List Token} {e : Expr}
    (h : Phrase n c w e) (hw : ∀ t ∈ w, t.Spelled) : e.LiteralsSpelled := by
  -- by recursion on the phrase: a literal is a token of its own, all else has its literals inside
  match h with
  | .truth ht =>
    refine List.forall_mem_singleton.2 (if_pos ?_)
    simpa using (Parser.isKeyword_eq_true_iff.1 ht).2
  | .int ht => exact List.forall_mem_singleton.2 ((hw _ (by simp)).int ht)
  | .float ht => exact List.forall_mem_singleton.2 ((hw _ (by simp)).float ht)
  | .name ht => exact List.forall_mem_singleton.2 trivial
  | .paren hl inner hr => exact inner.literalsSpelled fun t ht => hw t (by simp [ht])
  | .callNone callee hl hr => exact List.forall_mem_singleton.2 trivial
  | .call callee hl inner hr =>
    refine List.forall_mem_cons.2 ⟨trivial, fun part hpart => ?_⟩
    obtain ⟨e, he, hpart⟩ := Expr.mem_partsAll.1 hpart
    exact inner.literalsSpelled (fun t ht => hw t (by simp [ht])) e he part hpart
  | .unary hop operand =>
    have he := operand.literalsSpelled fun t ht => hw t (by simp [ht])
    exact List.forall_mem_cons.2 ⟨trivial, he⟩
  | .binary left hop right =>
    have hl := left.literalsSpelled fun t ht => hw t (by simp [ht])
    have hr := right.literalsSpelled fun t ht => hw t (by simp [ht])
    exact List.forall_mem_cons.2 ⟨trivial, List.forall_mem_append.2 ⟨hl, hr⟩⟩
  | .assign target hsign value =>
    have he := value.literalsSpelled fun t ht => hw t (by simp [ht])
    exact List.forall_mem_cons.2 ⟨trivial, he⟩
  | .tighter hc inner => exact inner.literalsSpelled hw

theorem Arguments.literalsSpelled {n : Nat} {w : List Token} {es : List Expr}
    (h : Arguments n w es) (hw : ∀ t ∈ w, t.Spelled) : ∀ e ∈ es, e.LiteralsSpelled := by
  match h with
  | .one last => exact List.forall_mem_singleton.2 (last.literalsSpelled hw)
  | .more first hcomma rest =>
    have hfirst := first.literalsSpelled fun t ht => hw t (by simp [ht])
    have hrest := rest.literalsSpelled fun t ht => hw t (by simp [ht])
    exact List.forall_mem_cons.2 ⟨hfirst, hrest⟩

end

mutual

/-- In a statement of `Spelled` tokens, the literals are spelled like literals and the declared
names are not. -/
theorem Statement.spelled {n : Nat} {w : List Token} {s : Stmt} (h : Statement n w s)
    (hw : ∀ t ∈ w, t.Spelled) :
    (∀ e ∈ s.exprs, e.LiteralsSpelled) ∧ ∀ x ∈ s.declared, literalKind? x = none := by
  -- a name that is declared is an identifier, and expressions have been dealt with
  match h with
  | .declare htype hname hsemi =>
    exact ⟨by simp [Stmt.exprs], by simpa [Stmt.declared] using (hw _ (by simp)).identifier hname⟩
  | .init htype hname hsign value hsemi =>
    have hvalue := value.1.literalsSpelled fun t ht => hw t (by simp [ht])
    exact ⟨by simpa [Stmt.exprs] using hvalue,
      by simpa [Stmt.declared] using (hw _ (by simp)).identifier hname⟩
  | .ifThen hword hl cond hr body =>
    have hcond := cond.1.literalsSpelled fun t ht => hw t (by simp [ht])
    obtain ⟨hexprs, hdeclared⟩ := body.spelled fun t ht => hw t (by simp [ht])
    exact ⟨List.forall_mem_cons.2 ⟨hcond, hexprs⟩, hdeclared⟩
  | .ifElse hword hl cond hr body hother alternative =>
    have hcond := cond.1.literalsSpelled fun t ht => hw t (by simp [ht])
    obtain ⟨hexprs, hdeclared⟩ := body.spelled fun t ht => hw t (by simp [ht])
    obtain ⟨hexprs', hdeclared'⟩ := alternative.spelled fun t ht => hw t (by simp [ht])
    exact ⟨List.forall_mem_cons.2 ⟨hcond, List.forall_mem_append.2 ⟨hexprs, hexprs'⟩⟩,
      List.forall_mem_append.2 ⟨hdeclared, hdeclared'⟩⟩
  | .loop hword hl cond hr body =>
    have hcond := cond.1.literalsSpelled fun t ht => hw t (by simp [ht])
    obtain ⟨hexprs, hdeclared⟩ := body.spelled fun t ht => hw t (by simp [ht])
    exact ⟨List.forall_mem_cons.2 ⟨hcond, hexprs⟩, hdeclared⟩
  | .ret hword hsemi => exact ⟨by simp [Stmt.exprs], by simp [Stmt.declared]⟩
  | .retValue hword value hsemi =>
    have hvalue := value.1.literalsSpelled fun t ht => hw t (by simp [ht])
    exact ⟨by simpa [Stmt.exprs] using hvalue, by simp [Stmt.declared]⟩
  | .expr inner hsemi =>
    have hinner := inner.1.literalsSpelled fun t ht => hw t (List.mem_append_left _ ht)
    exact ⟨by simpa [Stmt.exprs] using hinner, by simp [Stmt.declared]⟩

theorem Block.spelled {n : Nat} {w : List Token} {b : Tricode.Block} (h : Block n w b)
    (hw : ∀ t ∈ w, t.Spelled) :
    (∀ e ∈ b.exprs, e.LiteralsSpelled) ∧ ∀ x ∈ b.declared, literalKind? x = none := by
  match h with
  | .mk hl inner hr => exact inner.spelled fun t ht => hw t (by simp [ht])

theorem Statements.spelled {n : Nat} {w : List Token} {ss : List Stmt} (h : Statements n w ss)
    (hw : ∀ t ∈ w, t.Spelled) :
    (∀ e ∈ Stmt.exprsAll ss, e.LiteralsSpelled) ∧
      ∀ x ∈ Stmt.declaredAll ss, literalKind? x = none := by
  match h with
  | .nil => exact ⟨by simp [Stmt.exprsAll], by simp [Stmt.declaredAll]⟩
  | .cons first rest =>
    obtain ⟨hexprs, hdeclared⟩ := first.spelled fun t ht => hw t (by simp [ht])
    obtain ⟨hexprs', hdeclared'⟩ := rest.spelled fun t ht => hw t (by simp [ht])
    exact ⟨List.forall_mem_append.2 ⟨hexprs, hexprs'⟩,
      List.forall_mem_append.2 ⟨hdeclared, hdeclared'⟩⟩

end

theorem CommaSeparated.spelled {w : List Token} {ps : List Param}
    (h : CommaSeparated Parameter w ps) (hw : ∀ t ∈ w, t.Spelled) :
    ∀ p ∈ ps, literalKind? p.name = none := by
  induction h with
  | one last =>
    obtain ⟨-, hname⟩ := last
    simpa using (hw _ (by simp)).identifier hname
  | more first _ _ ih =>
    obtain ⟨-, hname⟩ := first
    have hfirst := (hw _ (by simp)).identifier hname
    exact List.forall_mem_cons.2 ⟨hfirst, ih fun t ht => hw t (by simp [ht])⟩

/-- The literals of a function are `Spelled` like literals, and its variables are not. -/
theorem Function.spelled {n : Nat} {w : List Token} {f : Tricode.Function} (h : Function n w f)
    (hw : ∀ t ∈ w, t.Spelled) :
    (∀ e ∈ f.body.exprs, e.LiteralsSpelled) ∧ ∀ x ∈ f.variables, literalKind? x = none := by
  obtain ⟨-, -, -, params, -, body⟩ := h
  obtain ⟨hexprs, hdeclared⟩ := body.spelled fun t ht => hw t (by simp [ht])
  refine ⟨hexprs, List.forall_mem_append.2 ⟨?_, hdeclared⟩⟩
  rw [List.forall_mem_map]
  cases params with
  | none => simp
  | some inner => exact inner.spelled fun t ht => hw t (by simp [ht])

theorem Sequence.spelled {n : Nat} {w : List Token} {fs : List Tricode.Function}
    (h : Sequence (Function n) w fs) (hw : ∀ t ∈ w, t.Spelled) :
    ∀ f ∈ fs, (∀ e ∈ f.body.exprs, e.LiteralsSpelled) ∧
      ∀ x ∈ f.variables, literalKind? x = none := by
  induction h with
  | nil => simp
  | cons first _ ih =>
    have hfirst := first.spelled fun t ht => hw t (by simp [ht])
    exact List.forall_mem_cons.2 ⟨hfirst, ih fun t ht => hw t (by simp [ht])⟩

end Grammar

end Tricode
