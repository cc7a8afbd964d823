import Tricode.Proofs.Grammar.Expr
import Tricode.Proofs.Parser.Reports

/-!
# The parser reads the grammar

`parse_eq_iff_derives`: the tokens in front of an end token are parsed without a finding exactly if
they derive from the grammar, with at most 50 constructs nested in one another and at most 200
compound expressions on a way down; the program found is the one that they denote.

Soundness and completeness of the statement parser are an induction on the room that is left for
nesting. A statement is not continued by the tokens behind it unless they begin with `else`.
-/

namespace Tricode

namespace Grammar

/-- A `Statement` begins with a token that neither closes a block nor begins an alternative. -/
theorem Statement.exists_first {n : Nat} {w : List Token} {s : Stmt} (h : Statement n w s) :
    ∃ t v, w = t :: v ∧ t.tag ≠ .eof ∧ t.tag ≠ .rightBrace ∧ t.isKeyword ["else"] = false := by
  -- all keywords that begin a statement are at hand, and `else` is none of them
  have hword : ∀ {t : Token} {words : List String}, t.isKeyword words = true → "else" ∉ words →
      t.tag ≠ .eof ∧ t.tag ≠ .rightBrace ∧ t.isKeyword ["else"] = false := by
    intro t words ht helse
    obtain ⟨htag, htext⟩ := Parser.isKeyword_eq_true_iff.1 ht
    refine ⟨by simp [htag], by simp [htag], Bool.eq_false_iff.2 fun hk => ?_⟩
    have heq : t.text = "else" := by simpa using (Parser.isKeyword_eq_true_iff.1 hk).2
    exact helse (heq ▸ htext)
  cases h with
  | declare htype => exact ⟨_, _, rfl, hword htype (by decide)⟩
  | init htype => exact ⟨_, _, rfl, hword htype (by decide)⟩
  | ifThen h => exact ⟨_, _, rfl, hword h (by decide)⟩
  | ifElse h => exact ⟨_, _, rfl, hword h (by decide)⟩
  | loop h => exact ⟨_, _, rfl, hword h (by decide)⟩
  | ret h => exact ⟨_, _, rfl, hword h (by decide)⟩
  | retValue h => exact ⟨_, _, rfl, hword h (by decide)⟩
  | expr inner =>
    obtain ⟨t, v, heq, htag, htext⟩ := inner.1.exists_first
    rw [heq]
    refine ⟨t, _, rfl, ?_, ?_, Bool.eq_false_iff.2 fun hk => ?_⟩
    · rintro heof
      simp [heof, Category.starting] at htag
    · rintro hbrace
      simp [hbrace, Category.starting] at htag
    · obtain ⟨hkey, helse⟩ := Parser.isKeyword_eq_true_iff.1 hk
      rw [List.mem_singleton.1 helse] at htext
      exact absurd (htext hkey) (by decide)

/-- Parameters begin with a keyword, the type of the first. -/
theorem CommaSeparated.exists_keyword {w : List Token} {ps : List Param}
    (h : CommaSeparated Parameter w ps) : ∃ t v, w = t :: v ∧ t.tag = .keyword := by
  cases h with
  | one last =>
    obtain ⟨htype, -⟩ := last
    exact ⟨_, _, rfl, (Parser.isKeyword_eq_true_iff.1 htype).1⟩
  | more first =>
    obtain ⟨htype, -⟩ := first
    exact ⟨_, _, rfl, (Parser.isKeyword_eq_true_iff.1 htype).1⟩

/-- A `Function` ends with a closing brace. -/
theorem Function.exists_last {n : Nat} {w : List Token} {f : Tricode.Function}
    (h : Function n w f) : ∃ v t, w = v ++ [t] ∧ t.tag = .rightBrace := by
  obtain ⟨-, -, -, -, -, ⟨-, -, hr⟩⟩ := h
  exact ⟨_, _, by simp only [← List.cons_append, ← List.append_assoc]; rfl, hr⟩

/-- The last token of a `Sequence` of functions closes a block. -/
theorem Sequence.getLast?_tag {n : Nat} {w : List Token} {fs : List Tricode.Function}
    (h : Sequence (Function n) w fs) : ∀ t ∈ w.getLast?, t.tag = .rightBrace := by
  induction h with
  | nil => simp
  | @cons w v f fs first _ ih =>
    cases v with
    | nil =>
      obtain ⟨u, t, rfl, ht⟩ := first.exists_last
      simpa using ht
    | cons t v => simpa [List.getLast?_append] using ih

end Grammar

namespace Parser

open Grammar

/-! ### Expressions inside statements -/

/-- What the parser `Yields` is an `Expression` of the tokens that it takes. -/
theorem expression_of_yields {n : Nat} {ts rest : List Token} {m : Measured}
    (h : (Parser.expression n).Yields ts m rest) :
    ∃ w, ts = w ++ rest ∧ Expression n w m.expr := by
  obtain ⟨w, rfl, hphrase, -, hdepth⟩ := sound_expression n _ _ _ h
  exact ⟨w, rfl, hphrase, hdepth⟩

/-- An `Expression` in front of a token that ends it is read. -/
theorem yields_of_expression {n : Nat} {w rest : List Token} {e : Expr} {t : Token}
    (h : Expression n w e) (ht : t.tag = .rightParen ∨ t.tag = .comma ∨ t.tag = .semicolon) :
    (Parser.expression n).Yields (w ++ t :: rest) (measure e) (t :: rest) :=
  complete_expression n w (measure e) (t :: rest) ⟨h.1, rfl, h.2⟩ (stops_assignment_of_tag ht)

/-- If the next token is a keyword, there is one. -/
theorem exists_cons_of_next_keyword {ts : List Token} (h : (next ts).tag = .keyword) :
    ∃ t rest, ts = t :: rest := by
  cases ts with
  | nil => simp [next, Token.beyond, Token.endAt] at h
  | cons t rest => exact ⟨t, rest, rfl⟩

/-! ### Simple statements -/

/-- Behind the keyword of a type, what `declaration` takes is the rest of a declaration. -/
theorem sound_declaration {n : Nat} {type : Token} (htype : type.isKeyword valueTypes = true) :
    Sound (declaration n type) fun w s => Statement n (type :: w) s := by
  intro ts s rest h
  obtain ⟨name, mid, rfl, -, hnameTag, h₁⟩ := expect_bind_yields_iff.1 h
  obtain ⟨sign?, mid', haccept, h₂⟩ := Pass.yields_bind_iff.1 h₁
  -- without an initial value, and with one
  cases sign? with
  | none =>
    obtain ⟨-, rfl⟩ := accept_yields_none_iff.1 haccept
    obtain ⟨init, last, hinit, h₃⟩ := Pass.yields_bind_iff.1 h₂
    obtain ⟨rfl, rfl⟩ := Pass.yields_pure_iff.1 hinit
    obtain ⟨semi, last, rfl, -, hsemiTag, h₄⟩ := expect_bind_yields_iff.1 h₃
    obtain ⟨rfl, rfl⟩ := Pass.yields_pure_iff.1 h₄
    exact ⟨[name, semi], rfl, .declare htype hnameTag hsemiTag⟩
  | some sign =>
    obtain ⟨rfl, -, hsign⟩ := accept_yields_some_iff.1 haccept
    obtain ⟨m, last, hexpr, h₃⟩ := Pass.yields_bind_iff.1 h₂
    obtain ⟨w, rfl, hw⟩ := expression_of_yields hexpr
    obtain ⟨init, last, hinit, h₄⟩ := Pass.yields_bind_iff.1 h₃
    obtain ⟨rfl, rfl⟩ := Pass.yields_pure_iff.1 hinit
    obtain ⟨semi, last, rfl, -, hsemiTag, h₅⟩ := expect_bind_yields_iff.1 h₄
    obtain ⟨rfl, rfl⟩ := Pass.yields_pure_iff.1 h₅
    exact ⟨name :: sign :: w ++ [semi], by simp,
      .init htype hnameTag (by simpa using hsign) hw hsemiTag⟩

/-- Behind the keyword, what `returnStatement` takes is the rest of a return statement. -/
theorem sound_returnStatement {n : Nat} {word : Token} (hword : word.isKeyword ["return"] = true) :
    Sound (returnStatement n word) fun w s => Statement n (word :: w) s := by
  intro ts s rest h
  obtain ⟨b, mid, hcheck, h₁⟩ := Pass.yields_bind_iff.1 h
  obtain ⟨-, rfl⟩ := check_yields_iff.1 hcheck
  cases b with
  | true =>
    obtain ⟨value, last, hvalue, h₂⟩ := Pass.yields_bind_iff.1 h₁
    obtain ⟨rfl, rfl⟩ := Pass.yields_pure_iff.1 hvalue
    obtain ⟨semi, last, rfl, -, hsemiTag, h₃⟩ := expect_bind_yields_iff.1 h₂
    obtain ⟨rfl, rfl⟩ := Pass.yields_pure_iff.1 h₃
    exact ⟨[semi], rfl, .ret hword hsemiTag⟩
  | false =>
    obtain ⟨m, last, hexpr, h₂⟩ := Pass.yields_bind_iff.1 h₁
    obtain ⟨w, rfl, hw⟩ := expression_of_yields hexpr
    obtain ⟨value, last, hvalue, h₃⟩ := Pass.yields_bind_iff.1 h₂
    obtain ⟨rfl, rfl⟩ := Pass.yields_pure_iff.1 hvalue
    obtain ⟨semi, last, rfl, -, hsemiTag, h₄⟩ := expect_bind_yields_iff.1 h₃
    obtain ⟨rfl, rfl⟩ := Pass.yields_pure_iff.1 h₄
    exact ⟨w ++ [semi], by simp, .retValue hword hw hsemiTag⟩

/-! ### Statements with blocks -/

/-- Behind the keyword, what `conditional` takes is the rest of a conditional. -/
theorem sound_conditional {n : Nat} {block : Parser Block} (hblock : Sound block (Grammar.Block n))
    {word : Token} (hword : word.isKeyword ["if"] = true) :
    Sound (conditional n block word) fun w s => Statement n (word :: w) s := by
  intro ts s rest h
  obtain ⟨l, mid, rfl, -, hlTag, h₁⟩ := expect_bind_yields_iff.1 h
  obtain ⟨m, mid', hexpr, h₂⟩ := Pass.yields_bind_iff.1 h₁
  obtain ⟨w, rfl, hw⟩ := expression_of_yields hexpr
  obtain ⟨r, mid', rfl, -, hrTag, h₃⟩ := expect_bind_yields_iff.1 h₂
  obtain ⟨body, mid', hbody, h₄⟩ := Pass.yields_bind_iff.1 h₃
  obtain ⟨v, rfl, hv⟩ := hblock _ _ _ hbody
  obtain ⟨other?, mid', haccept, h₅⟩ := Pass.yields_bind_iff.1 h₄
  -- without an alternative, and with one
  cases other? with
  | none =>
    obtain ⟨-, rfl⟩ := acceptKeyword_yields_none_iff.1 haccept
    obtain ⟨rfl, rfl⟩ := Pass.yields_pure_iff.1 h₅
    exact ⟨l :: w ++ r :: v, by simp, .ifThen hword hlTag hw hrTag hv⟩
  | some other =>
    obtain ⟨rfl, hother⟩ := acceptKeyword_yields_some_iff.1 haccept
    obtain ⟨alternative, mid', halternative, h₆⟩ := Pass.yields_bind_iff.1 h₅
    obtain ⟨u, rfl, hu⟩ := hblock _ _ _ halternative
    obtain ⟨rfl, rfl⟩ := Pass.yields_pure_iff.1 h₆
    exact ⟨l :: w ++ r :: v ++ other :: u, by simp, .ifElse hword hlTag hw hrTag hv hother hu⟩

/-- Behind the keyword, what `whileLoop` takes is the rest of a loop. -/
theorem sound_whileLoop {n : Nat} {block : Parser Block} (hblock : Sound block (Grammar.Block n))
    {word : Token} (hword : word.isKeyword ["while"] = true) :
    Sound (whileLoop n block word) fun w s => Statement n (word :: w) s := by
  intro ts s rest h
  obtain ⟨l, mid, rfl, -, hlTag, h₁⟩ := expect_bind_yields_iff.1 h
  obtain ⟨m, mid', hexpr, h₂⟩ := Pass.yields_bind_iff.1 h₁
  obtain ⟨w, rfl, hw⟩ := expression_of_yields hexpr
  obtain ⟨r, mid', rfl, -, hrTag, h₃⟩ := expect_bind_yields_iff.1 h₂
  obtain ⟨body, mid', hbody, h₄⟩ := Pass.yields_bind_iff.1 h₃
  obtain ⟨v, rfl, hv⟩ := hblock _ _ _ hbody
  obtain ⟨rfl, rfl⟩ := Pass.yields_pure_iff.1 h₄
  exact ⟨l :: w ++ r :: v, by simp, .loop hword hlTag hw hrTag hv⟩

/-- The statements that a parser may yield: those that the words denote. -/
def Found (n : Nat) (w : List Token) (s? : Option Stmt) : Prop :=
  ∃ s, s? = some s ∧ Statement n w s

/-- What `statementWith` yields is a statement, and it never yields nothing without a report. -/
theorem sound_statementWith {n : Nat} {block : Parser Block}
    (hblock : Sound block (Grammar.Block n)) : Sound (statementWith n block) (Found n) := by
  intro ts s? rest h
  obtain ⟨t, mid, hpeek, h₁⟩ := Pass.yields_bind_iff.1 h
  obtain ⟨rfl, rfl⟩ := peek_yields_iff.1 hpeek
  split at h₁
  · next hkeyword =>
    obtain ⟨_, mid, hskip, h₂⟩ := Pass.yields_bind_iff.1 h₁
    obtain rfl := skip_yields_iff.1 hskip
    simp only [Bool.and_eq_true, beq_iff_eq] at hkeyword
    obtain ⟨t, ts, rfl⟩ := exists_cons_of_next_keyword hkeyword.1
    have hword : ∀ words : List String, t.text ∈ words → t.isKeyword words = true :=
      fun words hw => isKeyword_eq_true_iff.2 ⟨hkeyword.1, hw⟩
    -- the word of the statement in front of what was read behind it
    have hfound : ∀ {p : Parser Stmt}, Sound p (fun w s => Statement n (t :: w) s) →
        (some <$> p).Yields ts s? rest → ∃ w, t :: ts = w ++ rest ∧ Found n w s? := by
      intro p hp h
      obtain ⟨s, hs, rfl⟩ := Pass.yields_map_iff.1 h
      obtain ⟨w, rfl, hw⟩ := hp _ _ _ hs
      exact ⟨t :: w, rfl, s, rfl, hw⟩
    split at h₂
    · next htype => exact hfound (sound_declaration (hword _ (by simpa using htype))) h₂
    split at h₂
    · next htext => exact hfound (sound_conditional hblock (hword _ (by simpa using htext))) h₂
    split at h₂
    · next htext => exact hfound (sound_whileLoop hblock (hword _ (by simpa using htext))) h₂
    split at h₂
    · next htext => exact hfound (sound_returnStatement (hword _ (by simpa using htext))) h₂
    · -- any other keyword is reported
      obtain ⟨_, _, hwrite, -⟩ := Pass.yields_bind_iff.1 h₂
      exact absurd hwrite Pass.not_yields_write
  · obtain ⟨m, mid, hexpr, h₂⟩ := Pass.yields_bind_iff.1 h₁
    obtain ⟨w, rfl, hw⟩ := expression_of_yields hexpr
    obtain ⟨semi, last, rfl, -, hsemiTag, h₃⟩ := expect_bind_yields_iff.1 h₂
    obtain ⟨rfl, rfl⟩ := Pass.yields_pure_iff.1 h₃
    obtain ⟨t, v, rfl, -⟩ := hw.1.exists_first
    exact ⟨t :: v ++ [semi], by simp, _, rfl, .expr hw hsemiTag⟩

/-! ### Blocks -/

/-- `blockItem`, one round of a block, reads a statement, unless the block or the text ends. -/
theorem blockItem_yields_some_iff {statement : Parser (Option Stmt)} (h : statement.Reports)
    {ts rest : List Token} {s? : Option Stmt} :
    (blockItem statement).Yields ts (some s?) rest ↔
      sees [.rightBrace] ts = false ∧ (next ts).isEnd = false ∧ statement.Yields ts s? rest := by
  constructor
  · intro hitem
    obtain ⟨b, mid, hcheck, h₁⟩ := Pass.yields_bind_iff.1 hitem
    obtain ⟨rfl, rfl⟩ := check_yields_iff.1 hcheck
    obtain ⟨b, mid, hend, h₂⟩ := Pass.yields_bind_iff.1 h₁
    obtain ⟨rfl, rfl⟩ := atEnd_yields_iff.1 hend
    split at h₂
    · simp [Pass.yields_pure_iff] at h₂
    · next hfalse =>
      obtain ⟨a, ha, heq⟩ := Pass.yields_map_iff.1 h₂
      obtain rfl := Option.some.inj heq
      rw [Bool.or_eq_true, not_or, Bool.not_eq_true, Bool.not_eq_true] at hfalse
      -- without a finding there was nothing to recover from
      exact ⟨hfalse.1, hfalse.2, (recovering_yields_iff h).1 ha⟩
  · rintro ⟨hbrace, hend, hs⟩
    refine Pass.yields_bind_iff.2 ⟨_, ts, check_yields_iff.2 ⟨rfl, rfl⟩, ?_⟩
    refine Pass.yields_bind_iff.2 ⟨_, ts, atEnd_yields_iff.2 ⟨rfl, rfl⟩, ?_⟩
    rw [hbrace, hend]
    exact Pass.yields_map_iff.2 ⟨s?, (recovering_yields_iff h).2 hs, rfl⟩

/-- The rounds of `blockItem` stop at a closing brace or at the end, where they are. -/
theorem blockItem_yields_none_iff {statement : Parser (Option Stmt)} {ts rest : List Token} :
    (blockItem statement).Yields ts none rest ↔
      (sees [.rightBrace] ts = true ∨ (next ts).isEnd = true) ∧ rest = ts := by
  constructor
  · intro hitem
    obtain ⟨b, mid, hcheck, h₁⟩ := Pass.yields_bind_iff.1 hitem
    obtain ⟨rfl, rfl⟩ := check_yields_iff.1 hcheck
    obtain ⟨b, mid, hend, h₂⟩ := Pass.yields_bind_iff.1 h₁
    obtain ⟨rfl, rfl⟩ := atEnd_yields_iff.1 hend
    split at h₂
    · next htrue =>
      obtain ⟨-, rfl⟩ := Pass.yields_pure_iff.1 h₂
      exact ⟨by simpa using htrue, rfl⟩
    · obtain ⟨a, -, heq⟩ := Pass.yields_map_iff.1 h₂
      cases heq
  · rintro ⟨hstop, rfl⟩
    refine Pass.yields_bind_iff.2 ⟨_, rest, check_yields_iff.2 ⟨rfl, rfl⟩, ?_⟩
    refine Pass.yields_bind_iff.2 ⟨_, rest, atEnd_yields_iff.2 ⟨rfl, rfl⟩, ?_⟩
    rw [if_pos (by simpa using hstop)]
    exact Pass.yields_pure_iff.2 ⟨rfl, rfl⟩

/-- Each round of `blockItem` takes a token at least. -/
theorem consumes_blockItem {n : Nat} (hs : Sound (statement n) (Found n)) :
    Consumes (blockItem (statement n)) where
  stops := blockItem_yields_none_iff.2 ⟨.inr rfl, rfl⟩
  reads ts s? rest h := by
    obtain ⟨-, -, hyields⟩ := (blockItem_yields_some_iff (reports_statement n)).1 h
    obtain ⟨w, rfl, s, -, hw⟩ := hs _ _ _ hyields
    obtain ⟨t, v, rfl, -⟩ := hw.exists_first
    simp only [List.cons_append, List.length_cons, List.length_append]
    omega

/-- The items of `blockItem`, read one behind the other, are `Statements`, none of which is
missing. -/
theorem statements_of_items {n : Nat} (hs : Sound (statement n) (Found n)) {ts rest : List Token}
    {found : List (Option Stmt)} (h : Items (blockItem (statement n)) ts found rest) :
    ∃ w ss, ts = w ++ rest ∧ found = ss.map some ∧ Statements n w ss := by
  induction h with
  | nil => exact ⟨[], [], rfl, rfl, .nil⟩
  | cons hhead _ ih =>
    obtain ⟨v, ss, rfl, rfl, hv⟩ := ih
    obtain ⟨-, -, hyields⟩ := (blockItem_yields_some_iff (reports_statement n)).1 hhead
    obtain ⟨w, rfl, s, rfl, hw⟩ := hs _ _ _ hyields
    exact ⟨w ++ v, s :: ss, by simp, rfl, .cons hw hv⟩

theorem sound_block_zero : Sound (block 0) (Grammar.Block 0) := by
  intro ts b rest h
  obtain ⟨brace, mid, -, h₁⟩ := Pass.yields_bind_iff.1 h
  obtain ⟨found, mid', hnested, -⟩ := Pass.yields_bind_iff.1 h₁
  obtain ⟨p, hp, -⟩ := nested_yields_iff.1 hnested
  cases hp

theorem sound_block_succ {n : Nat} (hs : Sound (statement n) (Found n)) :
    Sound (block (n + 1)) (Grammar.Block (n + 1)) := by
  intro ts b rest h
  obtain ⟨l, mid, rfl, -, hlTag, h₁⟩ := expect_bind_yields_iff.1 h
  obtain ⟨found, mid', hnested, h₂⟩ := Pass.yields_bind_iff.1 h₁
  obtain ⟨p, hp, hmany⟩ := nested_yields_iff.1 hnested
  obtain rfl := Option.some.inj hp
  -- the loop over the statements ends only where the closing brace or the end of the text is seen
  obtain ⟨last, hitems, hend⟩ := (many_yields_iff (consumes_blockItem hs)).1 hmany
  obtain ⟨-, rfl⟩ := blockItem_yields_none_iff.1 hend
  obtain ⟨w, ss, rfl, rfl, hw⟩ := statements_of_items hs hitems
  obtain ⟨r, last, rfl, -, hrTag, h₃⟩ := expect_bind_yields_iff.1 h₂
  obtain ⟨rfl, rfl⟩ := Pass.yields_pure_iff.1 h₃
  refine ⟨l :: w ++ [r], by simp, ?_⟩
  rw [List.filterMap_map, Function.id_comp, List.filterMap_some]
  exact .mk hlTag hw hrTag

/-- What `statement` yields is one, at any level. -/
theorem sound_statement (n : Nat) : Sound (statement n) (Found n) := by
  induction n with
  | zero =>
    rw [statement_eq]
    exact sound_statementWith sound_block_zero
  | succ n ih =>
    rw [statement_eq]
    exact sound_statementWith (sound_block_succ ih)

/-- What `block` yields is one, at any level. -/
theorem sound_block (n : Nat) : Sound (block n) (Grammar.Block n) := by
  cases n with
  | zero => exact sound_block_zero
  | succ n => exact sound_block_succ (sound_statement n)

/-! ### Completeness for statements -/

/-- Tokens that do not continue a conditional. -/
def NoElse (rest : List Token) : Prop := (next rest).isKeyword ["else"] = false

theorem declaration_yields_declare {n : Nat} {type name semi : Token} {rest : List Token}
    (hname : name.tag = .identifier) (hsemi : semi.tag = .semicolon) :
    (declaration n type).Yields (name :: semi :: rest)
      (.declare (.ofName type.text) name.text none type.pos) rest := by
  refine expect_bind_yields hname (by decide) ?_
  refine Pass.yields_bind_iff.2 ⟨none, _, accept_yields_none_iff.2 ⟨sees_cons_eq_false ?_, rfl⟩, ?_⟩
  · simp [hsemi]
  refine Pass.yields_bind_iff.2 ⟨none, _, Pass.yields_pure_iff.2 ⟨rfl, rfl⟩, ?_⟩
  refine expect_bind_yields hsemi (by decide) ?_
  exact Pass.yields_pure_iff.2 ⟨rfl, rfl⟩

theorem declaration_yields_init {n : Nat} {type name sign semi : Token} {w rest : List Token}
    {e : Expr} (hname : name.tag = .identifier) (hsign : sign.tag = .assign)
    (he : Expression n w e) (hsemi : semi.tag = .semicolon) :
    (declaration n type).Yields (name :: sign :: (w ++ semi :: rest))
      (.declare (.ofName type.text) name.text (some e) type.pos) rest := by
  refine expect_bind_yields hname (by decide) ?_
  refine Pass.yields_bind_iff.2 ⟨some sign, _, accept_yields_some_iff.2 ⟨rfl, ?_, ?_⟩, ?_⟩
  · simp [hsign]
  · simp [hsign]
  refine Pass.yields_bind_iff.2 ⟨_, _, yields_of_expression he (.inr (.inr hsemi)), ?_⟩
  refine Pass.yields_bind_iff.2 ⟨some e, _, Pass.yields_pure_iff.2 ⟨rfl, rfl⟩, ?_⟩
  refine expect_bind_yields hsemi (by decide) ?_
  exact Pass.yields_pure_iff.2 ⟨rfl, rfl⟩

theorem returnStatement_yields_ret {n : Nat} {word semi : Token} {rest : List Token}
    (hsemi : semi.tag = .semicolon) :
    (returnStatement n word).Yields (semi :: rest) (.ret none word.pos) rest := by
  have hsees : sees [.semicolon] (semi :: rest) = true := sees_cons_of_tag hsemi (by decide)
  refine Pass.yields_bind_iff.2 ⟨true, _, check_yields_iff.2 ⟨hsees.symm, rfl⟩, ?_⟩
  refine Pass.yields_bind_iff.2 ⟨none, _, Pass.yields_pure_iff.2 ⟨rfl, rfl⟩, ?_⟩
  refine expect_bind_yields hsemi (by decide) ?_
  exact Pass.yields_pure_iff.2 ⟨rfl, rfl⟩

theorem returnStatement_yields_retValue {n : Nat} {word semi : Token} {w rest : List Token}
    {e : Expr} (he : Expression n w e) (hsemi : semi.tag = .semicolon) :
    (returnStatement n word).Yields (w ++ semi :: rest) (.ret (some e) word.pos) rest := by
  have hsees : sees [.semicolon] (w ++ semi :: rest) = false := by
    obtain ⟨t, v, rfl, ht, -⟩ := he.1.exists_first
    refine sees_cons_eq_false fun hmem => ?_
    rw [List.mem_singleton.1 hmem] at ht
    exact absurd ht (by decide)
  refine Pass.yields_bind_iff.2 ⟨false, _, check_yields_iff.2 ⟨hsees.symm, rfl⟩, ?_⟩
  refine Pass.yields_bind_iff.2 ⟨_, _, yields_of_expression he (.inr (.inr hsemi)), ?_⟩
  refine Pass.yields_bind_iff.2 ⟨some e, _, Pass.yields_pure_iff.2 ⟨rfl, rfl⟩, ?_⟩
  refine expect_bind_yields hsemi (by decide) ?_
  exact Pass.yields_pure_iff.2 ⟨rfl, rfl⟩

section

variable {n : Nat} {block : Parser Block} {word l r : Token} {w ts rest : List Token} {e : Expr}
  {b : Block} {log : List (Finding GrammarCause)}

/-- `whileLoop` has the findings of the body. -/
theorem whileLoop_apply (hl : l.tag = .leftParen) (he : Expression n w e) (hr : r.tag = .rightParen)
    (hb : block ts = ⟨.ok b, log, rest⟩) :
    whileLoop n block word (l :: (w ++ r :: ts)) = ⟨.ok (.loop e b word.pos), log, rest⟩ := by
  unfold whileLoop
  rw [expect_bind_apply hl (by decide), (yields_of_expression he (.inl hr)).bind_apply,
    expect_bind_apply hr (by decide)]
  exact Pass.bind_eq_of_silent hb rfl

/-- `conditional` has the findings of the body, where no alternative follows. -/
theorem conditional_apply_ifThen (hl : l.tag = .leftParen) (he : Expression n w e)
    (hr : r.tag = .rightParen) (hb : block ts = ⟨.ok b, log, rest⟩) (hrest : NoElse rest) :
    conditional n block word (l :: (w ++ r :: ts)) = ⟨.ok (.ifThen e b word.pos), log, rest⟩ := by
  unfold conditional
  rw [expect_bind_apply hl (by decide), (yields_of_expression he (.inl hr)).bind_apply,
    expect_bind_apply hr (by decide)]
  refine Pass.bind_eq_of_silent hb ?_
  rw [(acceptKeyword_yields_none_iff.2 ⟨hrest, rfl⟩).bind_apply]
  rfl

/-- `conditional` has the findings of the body, then those of the alternative that follows. -/
theorem conditional_apply_ifElse {other : Token} {us : List Token} {a : Block}
    {log' : List (Finding GrammarCause)} (hl : l.tag = .leftParen) (he : Expression n w e)
    (hr : r.tag = .rightParen) (hb : block ts = ⟨.ok b, log, other :: us⟩)
    (hother : other.isKeyword ["else"] = true) (ha : block us = ⟨.ok a, log', rest⟩) :
    conditional n block word (l :: (w ++ r :: ts)) =
      ⟨.ok (.ifElse e b a word.pos), log ++ log', rest⟩ := by
  unfold conditional
  rw [expect_bind_apply hl (by decide), (yields_of_expression he (.inl hr)).bind_apply,
    expect_bind_apply hr (by decide)]
  refine Pass.bind_eq hb ?_
  rw [(acceptKeyword_yields_some_iff.2 ⟨rfl, hother⟩).bind_apply]
  exact Pass.bind_eq_of_silent ha rfl

/-- Behind the keyword of a statement, `statementWith` goes on as the parser for that keyword. -/
theorem statementWith_apply_of_keyword {t : Token} {s : Stmt} {words : List String}
    (ht : t.isKeyword words = true) {p : Parser Stmt} (hp : p ts = ⟨.ok s, log, rest⟩)
    (hwords : words = valueTypes ∧ p = declaration n t ∨
      words = ["if"] ∧ p = conditional n block t ∨
      words = ["while"] ∧ p = whileLoop n block t ∨ words = ["return"] ∧ p = returnStatement n t) :
    statementWith n block (t :: ts) = ⟨.ok (some s), log, rest⟩ := by
  obtain ⟨htag, htext⟩ := isKeyword_eq_true_iff.1 ht
  have hsome : (some <$> p) ts = ⟨.ok (some s), log, rest⟩ := by
    rw [← bind_pure_comp]
    exact Pass.bind_eq_of_silent hp rfl
  unfold statementWith
  rw [(peek_yields_iff.2 ⟨rfl, rfl⟩ : peek.Yields (t :: ts) t (t :: ts)).bind_apply]
  -- a word for a truth value would begin an expression
  have htruth : ∀ x ∈ words, x ∉ truthWords := by
    rcases hwords with ⟨rfl, -⟩ | ⟨rfl, -⟩ | ⟨rfl, -⟩ | ⟨rfl, -⟩ <;> decide
  rw [if_pos (by simpa [htag] using htruth _ htext),
    (skip_yields_iff.2 rfl : skip.Yields (t :: ts) () ts).bind_apply]
  rcases hwords with ⟨rfl, rfl⟩ | ⟨rfl, rfl⟩ | ⟨rfl, rfl⟩ | ⟨rfl, rfl⟩
  · rw [if_pos (by simpa using htext)]
    exact hsome
  · rw [List.mem_singleton.1 htext, if_neg (by decide), if_pos (by decide)]
    exact hsome
  · rw [List.mem_singleton.1 htext, if_neg (by decide), if_neg (by decide), if_pos (by decide)]
    exact hsome
  · rw [List.mem_singleton.1 htext, if_neg (by decide), if_neg (by decide), if_neg (by decide),
      if_pos (by decide)]
    exact hsome

end

/-- An `Expression` with a semicolon behind it is read as a statement. -/
theorem statementWith_yields_expr {n : Nat} {block : Parser Block} {t semi : Token}
    {w rest : List Token} {e : Expr} (he : Expression n (t :: w) e)
    (hsemi : semi.tag = .semicolon) :
    (statementWith n block).Yields (t :: (w ++ semi :: rest)) (some (.expr e t.pos)) rest := by
  obtain ⟨t', w', heq, -, htext⟩ := he.1.exists_first
  obtain ⟨rfl, rfl⟩ := List.cons.inj heq
  refine Pass.yields_bind_iff.2 ⟨t, _, peek_yields_iff.2 ⟨rfl, rfl⟩, ?_⟩
  rw [if_neg (by simpa [truthWords, Decidable.or_iff_not_imp_left] using htext)]
  refine Pass.yields_bind_iff.2 ⟨_, _, yields_of_expression he (.inr (.inr hsemi)), ?_⟩
  refine expect_bind_yields hsemi (by decide) ?_
  exact Pass.yields_pure_iff.2 ⟨rfl, rfl⟩

/-- A statement is read up to its end, unless an `else` behind it would continue it. -/
theorem complete_statementWith {n : Nat} {block : Parser Block}
    (hblock : Complete block (Grammar.Block n) fun _ => True) :
    Complete (statementWith n block) (Found n) NoElse := by
  rintro w _ rest ⟨s, rfl, h⟩ hrest
  rw [Pass.Yields]
  -- one case for each form of statement; only a conditional looks behind itself
  cases h with
  | declare htype hname hsemi =>
    exact statementWith_apply_of_keyword htype (declaration_yields_declare hname hsemi)
      (.inl ⟨rfl, rfl⟩)
  | init htype hname hsign value hsemi =>
    simpa using statementWith_apply_of_keyword htype
      (declaration_yields_init hname hsign value hsemi) (.inl ⟨rfl, rfl⟩)
  | ifThen hword hl cond hr body =>
    simpa using statementWith_apply_of_keyword hword
      (conditional_apply_ifThen hl cond hr (hblock _ _ rest body trivial) hrest)
      (.inr (.inl ⟨rfl, rfl⟩))
  | ifElse hword hl cond hr body hother alternative =>
    simpa using statementWith_apply_of_keyword hword
      (conditional_apply_ifElse hl cond hr (hblock _ _ _ body trivial) hother
        (hblock _ _ rest alternative trivial)) (.inr (.inl ⟨rfl, rfl⟩))
  | loop hword hl cond hr body =>
    simpa using statementWith_apply_of_keyword hword
      (whileLoop_apply hl cond hr (hblock _ _ rest body trivial)) (.inr (.inr (.inl ⟨rfl, rfl⟩)))
  | ret hword hsemi =>
    exact statementWith_apply_of_keyword hword (returnStatement_yields_ret hsemi)
      (.inr (.inr (.inr ⟨rfl, rfl⟩)))
  | retValue hword value hsemi =>
    simpa using statementWith_apply_of_keyword hword (returnStatement_yields_retValue value hsemi)
      (.inr (.inr (.inr ⟨rfl, rfl⟩)))
  | expr inner hsemi =>
    rw [List.append_assoc, List.cons_append]
    exact statementWith_yields_expr inner hsemi

/-- Statements are read one behind the other, up to where no `else` continues the last of them. -/
theorem items_of_statements {n : Nat} (hs : Complete (statement n) (Found n) NoElse)
    {rest : List Token} (hrest : NoElse rest) {w : List Token} {ss : List Stmt}
    (h : Statements n w ss) :
    Items (blockItem (statement n)) (w ++ rest) (ss.map some) rest ∧ NoElse (w ++ rest) := by
  induction ss generalizing w with
  | nil =>
    cases h
    exact ⟨.nil, hrest⟩
  | cons s ss ih =>
    cases h with
    | cons first others =>
      -- what follows a statement is another one or the rest, and neither begins with `else`
      obtain ⟨hitems, hnext⟩ := ih others
      obtain ⟨t, v, rfl, heof, hbrace, helse⟩ := first.exists_first
      rw [List.append_assoc]
      refine ⟨.cons ((blockItem_yields_some_iff (reports_statement n)).2 ⟨?_, ?_, ?_⟩) hitems,
        helse⟩
      · exact sees_cons_eq_false (by simpa using hbrace)
      · simpa [Token.isEnd] using heof
      · exact hs _ _ _ ⟨_, rfl, first⟩ hnext

/-- There is `NoElse` where anything but a keyword follows. -/
theorem noElse_cons_of_tag {r : Token} {tag : Tag} (hr : r.tag = tag) (htag : tag ≠ .keyword)
    (rest : List Token) : NoElse (r :: rest) := by
  simp [NoElse, Token.isKeyword, hr, htag]

theorem blockItem_yields_none_of_brace {statement : Parser (Option Stmt)} {r : Token}
    (hr : r.tag = .rightBrace) (rest : List Token) :
    (blockItem statement).Yields (r :: rest) none (r :: rest) :=
  blockItem_yields_none_iff.2 ⟨.inl (sees_cons_of_tag hr (by decide)), rfl⟩

/-- A `block` has the findings of its statements, and those that were left out are missing. -/
theorem block_apply {n : Nat} {l r : Token} {ts rest : List Token} {found : List (Option Stmt)}
    {log : List (Finding GrammarCause)} (hl : l.tag = .leftBrace)
    (hmany : many (blockItem (statement n)) ts = ⟨.ok found, log, r :: rest⟩)
    (hr : r.tag = .rightBrace) :
    block (n + 1) (l :: ts) = ⟨.ok (.mk (found.filterMap id) l.pos), log, rest⟩ := by
  unfold block blockWith
  rw [expect_bind_apply hl (by decide)]
  refine Pass.bind_eq_of_silent hmany ?_
  rw [expect_bind_apply hr (by decide)]
  rfl

/-- Every block is read by `block`, if every statement of one level less is. -/
theorem complete_block_succ {n : Nat} (hs : Complete (statement n) (Found n) NoElse) :
    Complete (block (n + 1)) (Grammar.Block (n + 1)) fun _ => True := by
  rintro _ _ rest ⟨hl, inner, hr⟩ -
  next l r w ss =>
  obtain ⟨hitems, -⟩ := items_of_statements hs (noElse_cons_of_tag hr (by decide) rest) inner
  -- all statements are read, and then the brace stops the rounds
  have hmany := (many_yields_iff (consumes_blockItem (sound_statement n))).2
    ⟨_, hitems, blockItem_yields_none_of_brace hr rest⟩
  have hblock := block_apply hl hmany hr
  rw [List.filterMap_map, Function.id_comp, List.filterMap_some] at hblock
  rw [List.append_assoc]
  exact hblock

theorem complete_block_zero : Complete (block 0) (Grammar.Block 0) fun _ => True := by
  rintro _ _ _ ⟨⟩

/-- Every statement is read, unless an `else` continues it. -/
theorem complete_statement (n : Nat) : Complete (statement n) (Found n) NoElse := by
  induction n with
  | zero =>
    rw [statement_eq]
    exact complete_statementWith complete_block_zero
  | succ n ih =>
    rw [statement_eq]
    exact complete_statementWith (complete_block_succ ih)

/-- Every block is read by `block`, whatever stands behind it. -/
theorem complete_block (n : Nat) : Complete (block n) (Grammar.Block n) fun _ => True := by
  cases n with
  | zero => exact complete_block_zero
  | succ n => exact complete_block_succ (complete_statement n)

/-! ### Functions -/

theorem sound_parameter : Sound parameter Parameter := by
  intro ts p rest h
  obtain ⟨type, mid, htype, h₁⟩ := Pass.yields_bind_iff.1 h
  obtain ⟨rfl, hkey⟩ := expectKeyword_yields_iff.1 htype
  obtain ⟨name, mid, rfl, -, hnameTag, h₂⟩ := expect_bind_yields_iff.1 h₁
  obtain ⟨rfl, rfl⟩ := Pass.yields_pure_iff.1 h₂
  exact ⟨[type, name], rfl, .mk hkey hnameTag⟩

theorem complete_parameter : Complete parameter Parameter fun _ => True := by
  rintro _ _ rest ⟨htype, hname⟩ -
  refine Pass.yields_bind_iff.2 ⟨_, _, expectKeyword_yields_iff.2 ⟨rfl, htype⟩, ?_⟩
  refine expect_bind_yields hname (by decide) ?_
  exact Pass.yields_pure_iff.2 ⟨rfl, rfl⟩

/-- What `parameters` yields are `Parameters`. -/
theorem sound_parameters : Sound parameters Parameters := by
  intro ts ps rest h
  obtain ⟨-, rfl, rfl⟩ | ⟨-, hlist⟩ := listed_yields_iff.1 h
  · exact ⟨[], rfl, .none⟩
  · obtain ⟨w, rfl, hw⟩ := sound_parameter.commaSeparated _ _ _ hlist
    exact ⟨w, rfl, .some hw⟩

theorem complete_parameters {w rest : List Token} {ps : List Param} {r : Token}
    (h : Parameters w ps) (hr : r.tag = .rightParen) :
    parameters.Yields (w ++ r :: rest) ps (r :: rest) := by
  cases h with
  | none => exact listed_yields_iff.2 (.inl ⟨sees_cons_of_tag hr (by decide), rfl, rfl⟩)
  | some inner =>
    obtain ⟨type, v, rfl, htype⟩ := inner.exists_keyword
    refine listed_yields_iff.2 (.inr ⟨sees_cons_eq_false (by simp [htype]), ?_⟩)
    have hcomplete := complete_parameter.commaSeparated sound_parameter fun _ _ _ => trivial
    exact hcomplete _ _ _ inner ⟨trivial, sees_cons_eq_false (by simp [hr])⟩

/-- What `function` yields is a function. -/
theorem sound_function (n : Nat) : Sound (function n) (Grammar.Function n) := by
  intro ts f rest h
  obtain ⟨type, mid, htype, h₁⟩ := Pass.yields_bind_iff.1 h
  obtain ⟨rfl, hkey⟩ := expectKeyword_yields_iff.1 htype
  obtain ⟨name, mid, rfl, -, hnameTag, h₂⟩ := expect_bind_yields_iff.1 h₁
  obtain ⟨l, mid, rfl, -, hlTag, h₃⟩ := expect_bind_yields_iff.1 h₂
  obtain ⟨ps, mid, hps, h₄⟩ := Pass.yields_bind_iff.1 h₃
  obtain ⟨w, rfl, hw⟩ := sound_parameters _ _ _ hps
  obtain ⟨r, mid, rfl, -, hrTag, h₅⟩ := expect_bind_yields_iff.1 h₄
  obtain ⟨b, mid, hb, h₆⟩ := Pass.yields_bind_iff.1 h₅
  obtain ⟨v, rfl, hv⟩ := sound_block n _ _ _ hb
  obtain ⟨rfl, rfl⟩ := Pass.yields_pure_iff.1 h₆
  exact ⟨type :: name :: l :: w ++ r :: v, by simp, .mk hkey hnameTag hlTag hw hrTag hv⟩

/-- A `function` has the findings of its body. -/
theorem function_apply {n : Nat} {type name l r : Token} {w ts rest : List Token} {ps : List Param}
    {b : Block} {log : List (Finding GrammarCause)} (htype : type.isKeyword returnTypes = true)
    (hname : name.tag = .identifier) (hl : l.tag = .leftParen) (hparams : Parameters w ps)
    (hr : r.tag = .rightParen) (hb : block n ts = ⟨.ok b, log, rest⟩) :
    function n (type :: name :: l :: (w ++ r :: ts)) =
      ⟨.ok ⟨.ofName type.text, name.text, ps, b, type.pos⟩, log, rest⟩ := by
  unfold function
  rw [(expectKeyword_yields_iff.2 ⟨rfl, htype⟩).bind_apply, expect_bind_apply hname (by decide),
    expect_bind_apply hl (by decide), (complete_parameters hparams hr).bind_apply,
    expect_bind_apply hr (by decide)]
  exact Pass.bind_eq_of_silent hb rfl

/-- Every function is read by `function`, whatever stands behind it. -/
theorem complete_function (n : Nat) :
    Complete (function n) (Grammar.Function n) fun _ => True := by
  rintro _ _ rest ⟨htype, hname, hl, params, hr, body⟩ -
  simp only [List.cons_append, List.append_assoc]
  exact function_apply htype hname hl params hr (complete_block n _ _ rest body trivial)

/-! ### Programs -/

/-- `programItem`, one round of a program, reads a function, unless the text ends. -/
theorem programItem_yields_some_iff {n : Nat} {ts rest : List Token} {f? : Option Function} :
    (programItem n).Yields ts (some f?) rest ↔
      (next ts).isEnd = false ∧ ∃ f, f? = some f ∧ (function n).Yields ts f rest := by
  have hreports : (some <$> function n : Parser (Option Function)).Reports :=
    ((explains_function n).map some).reports
  constructor
  · intro h
    obtain ⟨b, mid, hend, h₁⟩ := Pass.yields_bind_iff.1 h
    obtain ⟨rfl, rfl⟩ := atEnd_yields_iff.1 hend
    split at h₁
    · simp [Pass.yields_pure_iff] at h₁
    · next hfalse =>
      obtain ⟨a, ha, heq⟩ := Pass.yields_map_iff.1 h₁
      obtain rfl := Option.some.inj heq
      obtain ⟨f, hf, rfl⟩ := Pass.yields_map_iff.1 ((recovering_yields_iff hreports).1 ha)
      exact ⟨by simpa using hfalse, f, rfl, hf⟩
  · rintro ⟨hend, f, rfl, hf⟩
    refine Pass.yields_bind_iff.2 ⟨_, ts, atEnd_yields_iff.2 ⟨rfl, rfl⟩, ?_⟩
    rw [hend]
    refine Pass.yields_map_iff.2 ⟨some f, (recovering_yields_iff hreports).2 ?_, rfl⟩
    exact Pass.yields_map_iff.2 ⟨f, hf, rfl⟩

/-- The rounds of `programItem` stop at the end, where they are. -/
theorem programItem_yields_none_iff {n : Nat} {ts rest : List Token} :
    (programItem n).Yields ts none rest ↔ (next ts).isEnd = true ∧ rest = ts := by
  constructor
  · intro h
    obtain ⟨b, mid, hend, h₁⟩ := Pass.yields_bind_iff.1 h
    obtain ⟨rfl, rfl⟩ := atEnd_yields_iff.1 hend
    split at h₁
    · next htrue =>
      obtain ⟨-, rfl⟩ := Pass.yields_pure_iff.1 h₁
      exact ⟨htrue, rfl⟩
    · obtain ⟨a, -, heq⟩ := Pass.yields_map_iff.1 h₁
      cases heq
  · rintro ⟨hend, rfl⟩
    refine Pass.yields_bind_iff.2 ⟨_, rest, atEnd_yields_iff.2 ⟨rfl, rfl⟩, ?_⟩
    rw [hend]
    exact Pass.yields_pure_iff.2 ⟨rfl, rfl⟩

theorem consumes_programItem (n : Nat) : Consumes (programItem n) where
  stops := programItem_yields_none_iff.2 ⟨rfl, rfl⟩
  reads ts f? rest h := by
    obtain ⟨-, f, rfl, hf⟩ := programItem_yields_some_iff.1 h
    obtain ⟨_, rfl, hw⟩ := sound_function n _ _ _ hf
    cases hw
    simp only [List.cons_append, List.length_cons, List.length_append]
    omega

/-- Functions read one behind the other are a `Sequence` of functions, none of which is missing. -/
theorem sequence_of_items {n : Nat} {ts rest : List Token} {found : List (Option Function)}
    (h : Items (programItem n) ts found rest) :
    ∃ w fs, ts = w ++ rest ∧ found = fs.map some ∧ Sequence (Grammar.Function n) w fs := by
  induction h with
  | nil => exact ⟨[], [], rfl, rfl, .nil⟩
  | cons hhead _ ih =>
    obtain ⟨v, fs, rfl, rfl, hv⟩ := ih
    obtain ⟨-, f, rfl, hf⟩ := programItem_yields_some_iff.1 hhead
    obtain ⟨w, rfl, hw⟩ := sound_function n _ _ _ hf
    exact ⟨w ++ v, f :: fs, by simp, rfl, .cons hw hv⟩

/-- A `Sequence` of functions is read one behind the other. -/
theorem items_of_sequence {n : Nat} {w : List Token} {fs : List Function}
    (h : Sequence (Grammar.Function n) w fs) (rest : List Token) :
    Items (programItem n) (w ++ rest) (fs.map some) rest := by
  induction h with
  | nil => exact .nil
  | cons first _ ih =>
    rw [List.append_assoc]
    refine .cons (programItem_yields_some_iff.2 ⟨?_, _, rfl, ?_⟩) ih
    · obtain ⟨htype, -⟩ := first
      simp [Token.isEnd, (isKeyword_eq_true_iff.1 htype).1]
    · exact complete_function n _ _ _ first trivial

/-- What `program` `Yields` without a finding is a sequence of functions up to the end. -/
theorem program_yields_iff {n : Nat} {ts rest : List Token} {p : Program} :
    (program n).Yields ts p rest ↔
      ∃ w, ts = w ++ rest ∧ Sequence (Grammar.Function n) w p.functions ∧
        p.pos = (next ts).pos ∧ (next rest).isEnd = true := by
  constructor
  · intro h
    obtain ⟨first, mid, hpeek, h₁⟩ := Pass.yields_bind_iff.1 h
    obtain ⟨rfl, rfl⟩ := peek_yields_iff.1 hpeek
    obtain ⟨found, mid, hmany, h₂⟩ := Pass.yields_bind_iff.1 h₁
    obtain ⟨rfl, rfl⟩ := Pass.yields_pure_iff.1 h₂
    obtain ⟨last, hitems, hlast⟩ := (many_yields_iff (consumes_programItem n)).1 hmany
    obtain ⟨hend, rfl⟩ := programItem_yields_none_iff.1 hlast
    obtain ⟨w, fs, rfl, rfl, hw⟩ := sequence_of_items hitems
    refine ⟨w, rfl, ?_, rfl, hend⟩
    -- no function was left out
    simpa [List.filterMap_map] using hw
  · rintro ⟨w, rfl, hw, hpos, hend⟩
    have hlast := programItem_yields_none_iff (n := n).2 ⟨hend, rfl⟩
    have hmany := (many_yields_iff (consumes_programItem n)).2
      ⟨rest, items_of_sequence hw rest, hlast⟩
    refine Pass.yields_bind_iff.2 ⟨_, _, peek_yields_iff.2 ⟨rfl, rfl⟩, ?_⟩
    refine Pass.yields_bind_iff.2 ⟨_, rest, hmany, Pass.yields_pure_iff.2 ⟨?_, rfl⟩⟩
    rw [List.filterMap_map, Function.id_comp, List.filterMap_some, ← hpos]

end Parser

open Tricode.Parser Grammar

/-- `parse` finds nothing wrong exactly if `program` `Yields`. -/
theorem parse_eq_iff_yields {ts : List Token} {p : Program} :
    parse ts = (p, []) ↔ ∃ rest, (program maxNesting).Yields ts p rest := by
  constructor
  · intro h
    obtain ⟨hget, hlog⟩ := Prod.mk.inj h
    exact ⟨_, Outcome.eq_mk (Outcome.value_eq_ok_of_get hget) hlog rfl⟩
  · rintro ⟨rest, h⟩
    rw [Pass.Yields] at h
    rw [parse, h]
    rfl

/-- The tokens in front of an end token are read by `program` up to it, and no further. -/
theorem derives_iff_yields {ts : List Token} {stop : Token} (hts : ∀ t ∈ ts, t.tag ≠ .eof)
    (hstop : stop.tag = .eof) {p : Program} :
    Derives ts stop p ↔ ∃ rest, (program maxNesting).Yields (ts ++ [stop]) p rest := by
  have hnext : next (ts ++ [stop]) = ts.headD stop := by
    cases ts <;> rfl
  constructor
  · rintro ⟨hfunctions, hpos⟩
    exact ⟨[stop], program_yields_iff.2
      ⟨ts, rfl, hfunctions, by rw [hnext, hpos], by simp [Token.isEnd, hstop]⟩⟩
  · rintro ⟨rest, h⟩
    obtain ⟨w, hw, hfunctions, hpos, hend⟩ := program_yields_iff.1 h
    rw [hnext] at hpos
    -- the functions cannot have taken the end token, and nothing else stops them
    rcases List.append_eq_append_iff.1 hw with ⟨v, rfl, hv⟩ | ⟨v, rfl, hv⟩
    · cases v with
      | nil =>
        rw [List.append_nil] at hfunctions
        exact ⟨hfunctions, hpos⟩
      | cons t v =>
        obtain ⟨rfl, hnil⟩ := List.cons.inj hv
        obtain ⟨rfl, -⟩ := List.append_eq_nil_iff.1 hnil.symm
        have hbrace := hfunctions.getLast?_tag stop (by simp)
        exact absurd (hstop.symm.trans hbrace) (by decide)
    · cases v with
      | nil =>
        rw [List.append_nil] at hpos ⊢
        exact ⟨hfunctions, hpos⟩
      | cons t v =>
        obtain rfl := hv
        exact absurd (by simpa [Token.isEnd] using hend) (hts t (by simp))

/-- The parser accepts exactly the programs of the grammar, and finds the program that the tokens
denote: `parse` gives the program and no finding exactly if the tokens in front of the end token
`Derives` it. -/
theorem parse_eq_iff_derives (ts : List Token) (stop : Token) (hts : ∀ t ∈ ts, t.tag ≠ .eof)
    (hstop : stop.tag = .eof) :
    ((parse (ts ++ [stop])).2 = [] ↔ ∃ p, Derives ts stop p) ∧
      ∀ p, Derives ts stop p ↔ parse (ts ++ [stop]) = (p, []) := by
  have hderives : ∀ p, Derives ts stop p ↔ parse (ts ++ [stop]) = (p, []) := fun p =>
    (derives_iff_yields hts hstop).trans parse_eq_iff_yields.symm
  refine ⟨⟨fun h => ⟨(parse (ts ++ [stop])).1, ?_⟩, ?_⟩, hderives⟩
  · rw [hderives, ← h]
  · rintro ⟨p, hp⟩
    rw [(hderives p).1 hp]

/-- `int f() { x = 1; }`, one token a column. -/
theorem derives_function_with_assignment :
    Derives
      [⟨.keyword, "int", ⟨1, 1⟩⟩, ⟨.identifier, "f", ⟨1, 2⟩⟩, ⟨.leftParen, "(", ⟨1, 3⟩⟩,
        ⟨.rightParen, ")", ⟨1, 4⟩⟩, ⟨.leftBrace, "\x7b", ⟨1, 5⟩⟩, ⟨.identifier, "x", ⟨1, 6⟩⟩,
        ⟨.assign, "=", ⟨1, 7⟩⟩, ⟨.intLiteral, "1", ⟨1, 8⟩⟩, ⟨.semicolon, ";", ⟨1, 9⟩⟩,
        ⟨.rightBrace, "\x7d", ⟨1, 10⟩⟩]
      (.endAt ⟨1, 11⟩)
      ⟨[⟨.int, "f", [], .mk [.expr (.assign "x" (.literal .int "1" ⟨1, 8⟩) ⟨1, 6⟩) ⟨1, 6⟩] ⟨1, 5⟩,
        ⟨1, 1⟩⟩], ⟨1, 1⟩⟩ :=
  ((parse_eq_iff_derives _ _ (by decide) rfl).2 _).2 (by rfl)

end Tricode
