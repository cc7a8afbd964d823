import Tricode.Proofs.Grammar.Gap
import Tricode.Proofs.Grammar.Program
import Tricode.Proofs.Parser.Plain

/-!
# A bad statement does no damage beyond itself

Take a program in which nothing is wrong, a place between two statements of one of its blocks, and
put there any tokens that can stand in an expression, with a semicolon behind them. If the tokens
are an expression, the program has one more statement. If they are not, recovery drops them: there
is one finding, and the program is the one it was before (`parse_insert`).

The failure lies in front of the semicolon, since the parsers for expressions never go past it
(`Plain`), and recovery goes on behind the first semicolon (`recovered_append`). That the rest of
the text is read as if nothing had happened is an induction along the way from the gap to the whole
program; `Inserts` is what it needs to know about the tokens in the gap.
-/

namespace Tricode

namespace Token.Inert

variable {t : Token}

/-- An `Inert` token has none of these tags. -/
theorem tag_ne (h : t.Inert) {tag : Tag}
    (htag : tag ∈ [Tag.semicolon, .leftBrace, .rightBrace, .eof]) :
    t.tag ≠ tag :=
  fun heq => h.1 (heq ▸ htag)

theorem isEnd (h : t.Inert) : t.isEnd = false := by
  have htag : t.tag ≠ .eof := h.tag_ne (by decide)
  simpa [Token.isEnd] using htag

/-- An `Inert` token is no keyword that is not a truth value. -/
theorem isKeyword (h : t.Inert) {words : List String}
    (hwords : ∀ word ∈ words, word ∉ Parser.truthWords) :
    t.isKeyword words = false := by
  rw [← Bool.not_eq_true]
  intro hword
  obtain ⟨htag, htext⟩ := Parser.isKeyword_eq_true_iff.1 hword
  exact hwords _ htext (h.2 htag)

end Token.Inert

namespace Parser

open Grammar

variable {α ε : Type}

/-! ### Items with findings -/

/-- The items `as` are read one behind the other in front of `rest`, with `log` as findings. -/
inductive Collects (item : Reader ε (Option α)) :
    List Token → List α → List (Finding GrammarCause) → List Token → Prop where
  | nil {ts : List Token} : Collects item ts [] [] ts
  | cons {ts mid rest : List Token} {a : α} {as : List α} {log log' : List (Finding GrammarCause)}
    (head : item ts = ⟨.ok (some a), log, mid⟩) (hlt : mid.length < ts.length)
    (tail : Collects item mid as log' rest) : Collects item ts (a :: as) (log ++ log') rest

/-- A single item. -/
theorem collects_singleton {item : Reader ε (Option α)} {ts rest : List Token} {a : α}
    {log : List (Finding GrammarCause)} (h : item ts = ⟨.ok (some a), log, rest⟩)
    (hlt : rest.length < ts.length) : Collects item ts [a] log rest := by
  have hcons := Collects.cons h hlt .nil
  rwa [List.append_nil] at hcons

/-- Rows of items that `Collects` finds, one behind the other. -/
theorem Collects.append {item : Reader ε (Option α)} {ts mid rest : List Token} {as bs : List α}
    {log log' : List (Finding GrammarCause)} (h : Collects item ts as log mid)
    (h' : Collects item mid bs log' rest) : Collects item ts (as ++ bs) (log ++ log') rest := by
  induction h with
  | nil => exact h'
  | cons head hlt _ ih =>
    rw [List.append_assoc]
    exact .cons head hlt (ih h')

/-- A row of `Items`, without findings, is one that `Collects` finds. -/
theorem collects_of_items {item : Reader ε (Option α)} (hitem : Consumes item)
    {ts rest : List Token}
    {as : List α} (h : Items item ts as rest) : Collects item ts as [] rest := by
  induction h with
  | nil => exact .nil
  | cons head _ ih => exact .cons head (hitem.reads _ _ _ head) ih

theorem collect_apply {item : Reader ε (Option α)} {ts rest : List Token} {a : α}
    {log : List (Finding GrammarCause)} (h : item ts = ⟨.ok (some a), log, rest⟩) (found : List α) :
    collect item found ts = ⟨.ok (some (a :: found)), log, rest⟩ :=
  Pass.bind_eq_of_silent h rfl

/-- A row of items with findings is what `many` finds. -/
theorem many_apply {item : Reader ε (Option α)} (hitem : Consumes item) {ts mid rest : List Token}
    {as : List α} {log : List (Finding GrammarCause)} (h : Collects item ts as log mid)
    (hend : item.Yields mid none rest) : many item ts = ⟨.ok as, log, rest⟩ := by
  -- the loop has the items so far in reverse, and room for as many steps as there are tokens
  have hloop : ∀ (room : List Token) (found : List α), ts.length ≤ room.length →
      loopFrom (collect item) room found ts [] = ⟨.ok (as.reverse ++ found), log, rest⟩ := by
    induction h with
    | nil =>
      intro room found hroom
      exact loopFrom_of_steps (advances_collect hitem) (collect_yields_none_iff.2 hend) (found, _)
        .refl room hroom
    | cons head hlt _ ih =>
      intro room found hroom
      cases room with
      | nil =>
        simp only [List.length_nil] at hroom
        omega
      | cons t room =>
        simp only [List.length_cons] at hroom
        simp only [loopFrom, collect_apply head]
        rw [loopFrom_log, ih hend room _ (by omega)]
        simp
  have hrun : loop (collect item) [] ts = ⟨.ok as.reverse, log, rest⟩ := by
    rw [← List.append_nil as.reverse]
    exact hloop ts [] (Nat.le_refl _)
  have hmany : many item ts = ⟨.ok as.reverse.reverse, log, rest⟩ := Pass.bind_eq_of_silent hrun rfl
  rwa [List.reverse_reverse] at hmany

/-! ### Recovery -/

/-- Where there is no failure, `recovering` does nothing. -/
theorem recovering_of_ok {raise : Empty → ε} {p : Parser (Option α)} {ts rest : List Token}
    {a? : Option α} {log : List (Finding GrammarCause)} (h : p ts = ⟨.ok a?, log, rest⟩) :
    (recovering raise p : Reader ε (Option α)) ts = ⟨.ok a?, log, rest⟩ := by
  have hattempt : (Pass.attempt p : Reader ε _) ts = ⟨.ok (.ok a?), log, rest⟩ := by
    rw [Pass.attempt, h]
  exact Pass.bind_eq_of_silent hattempt rfl

/-- Behind a failure, `recovering` has read on, and finds nothing. -/
theorem recovering_of_error {raise : Empty → ε} {p : Parser (Option α)} {ts rest : List Token}
    {e : GrammarCause} {log : List (Finding GrammarCause)} (h : p ts = ⟨.error e, log, rest⟩) :
    (recovering raise p : Reader ε (Option α)) ts = ⟨.ok none, log, recovered rest⟩ := by
  have hattempt : (Pass.attempt p : Reader ε _) ts = ⟨.ok (.error e), log, rest⟩ := by
    rw [Pass.attempt, h]
  exact Pass.bind_eq_of_silent hattempt rfl

/-- Behind a semicolon, `skipFrom` skips nothing. -/
theorem skipFrom_semicolon {semi : Token} (hsemi : semi.tag = .semicolon) (rest : List Token) :
    skipFrom semi rest = rest := by
  cases rest with
  | nil => rfl
  | cons t rest => simp [skipFrom, hsemi]

/-- `skipFrom` skips `Inert` tokens up to the first semicolon. -/
theorem skipFrom_append {last semi : Token} (hlast : last.tag ≠ .semicolon) {ts : List Token}
    (hts : ∀ t ∈ ts, t.Inert) (hsemi : semi.tag = .semicolon) (rest : List Token) :
    skipFrom last (ts ++ semi :: rest) = rest := by
  induction ts generalizing last with
  | nil =>
    have hskip : (semi.isEnd || last.tag == .semicolon || semi.isKeyword recoveryWords) =
        false := by
      simp [Token.isEnd, Token.isKeyword, hsemi, hlast]
    rw [List.nil_append, skipFrom, hskip]
    exact skipFrom_semicolon hsemi rest
  | cons t ts ih =>
    obtain ⟨ht, hrest⟩ := List.forall_mem_cons.1 hts
    -- an inert token is none at which recovery stops
    have hskip : (t.isEnd || last.tag == .semicolon || t.isKeyword recoveryWords) = false := by
      simp [ht.isEnd, ht.isKeyword (show ∀ word ∈ recoveryWords, word ∉ truthWords by decide),
        hlast]
    rw [List.cons_append, skipFrom, hskip]
    exact ih (ht.tag_ne (by decide)) hrest

/-- Behind `Inert` tokens, recovery goes on behind the first semicolon. -/
theorem recovered_append {semi : Token} {ts : List Token} (hts : ∀ t ∈ ts, t.Inert)
    (hsemi : semi.tag = .semicolon) (rest : List Token) :
    recovered (ts ++ semi :: rest) = rest := by
  cases ts with
  | nil =>
    rw [List.nil_append, recovered, if_neg (by simp [Token.isEnd, hsemi])]
    exact skipFrom_semicolon hsemi rest
  | cons t ts =>
    obtain ⟨ht, hrest⟩ := List.forall_mem_cons.1 hts
    rw [List.cons_append, recovered, if_neg (by simp [ht.isEnd])]
    exact skipFrom_append (ht.tag_ne (by decide)) hrest hsemi rest

/-! ### A statement that fails -/

/-- `expect` blames a token that it does not ask for. -/
theorem expect_apply_of_ne {tag : Tag} (cause : GrammarCause) {t : Token} (ht : t.tag ≠ tag)
    (ts : List Token) : expect tag cause (t :: ts) = ⟨.error cause, [⟨cause, t.pos⟩], t :: ts⟩ := by
  have hsees : sees [tag] (t :: ts) = false := sees_cons_eq_false (by simpa using ht)
  unfold expect
  rw [(accept_yields_none_iff.2 ⟨hsees, rfl⟩).bind_apply]
  rfl

/-- What is `Inert` in front of a semicolon lies in front of every semicolon. -/
theorem exists_append_of_inert {w rest us vs : List Token} {semi : Token}
    (h : us ++ semi :: vs = w ++ rest) (hw : ∀ t ∈ w, t.Inert) (hsemi : semi.tag = .semicolon) :
    ∃ us', us = w ++ us' ∧ rest = us' ++ semi :: vs := by
  rcases List.append_eq_append_iff.1 h with ⟨w', rfl, hrest⟩ | ⟨us', rfl, hrest⟩
  · cases w' with
    | nil => exact ⟨[], by simp, by simpa using hrest.symm⟩
    | cons t w' =>
      obtain ⟨rfl, -⟩ := List.cons.inj hrest
      exact absurd hsemi ((hw semi (by simp)).tag_ne (by decide))
  · exact ⟨us', rfl, hrest⟩

/-- `Inert` tokens that are no `Expression`, with a semicolon behind them, are no statement. The
statement fails once, and in front of the semicolon. -/
theorem statement_apply_of_not_expression {n : Nat} {us : List Token} {semi : Token}
    (hus : ∀ t ∈ us, t.Inert) (hsemi : semi.tag = .semicolon) (hnot : ¬ ∃ e, Expression n us e)
    (rest : List Token) :
    ∃ cause pos us', statement n (us ++ semi :: rest) =
      ⟨.error cause, [⟨cause, pos⟩], us' ++ semi :: rest⟩ ∧ ∀ t ∈ us', t.Inert := by
  have hword : ¬ ((next (us ++ semi :: rest)).tag == .keyword &&
      !truthWords.contains (next (us ++ semi :: rest)).text) = true := by
    cases us with
    | nil => simp [hsemi]
    | cons t us =>
      obtain ⟨ht, -⟩ := List.forall_mem_cons.1 hus
      simpa using ht.2
  rw [statement_eq]
  unfold statementWith
  rw [(peek_yields_iff.2 ⟨rfl, rfl⟩).bind_apply, if_neg hword]
  have hplain := plain_expression n (us ++ semi :: rest)
  obtain ⟨w, hw, hinert⟩ := hplain.reads
  obtain ⟨us', rfl, hstate⟩ := exists_append_of_inert hw hinert hsemi
  have hus' : ∀ t ∈ us', t.Inert := (List.forall_mem_append.1 hus).2
  cases hvalue : (expression n (w ++ us' ++ semi :: rest)).value with
  | error cause =>
    obtain ⟨pos, hlog⟩ := hplain.reports cause hvalue
    exact ⟨cause, pos, us', Pass.bind_of_error (Outcome.eq_mk hvalue hlog hstate), hus'⟩
  | ok m =>
    have hyields := hplain.yields hvalue
    rw [hyields.bind_apply, hstate]
    cases us' with
    | nil =>
      -- all tokens have been read, so they are an expression after all
      obtain ⟨w', hw', hexpression⟩ := expression_of_yields hyields
      obtain rfl : w' = w := List.append_cancel_right (hw'.symm.trans hw)
      exact absurd ⟨m.expr, by simpa using hexpression⟩ hnot
    | cons t us' =>
      have ht : t.tag ≠ .semicolon := (hus' t (by simp)).tag_ne (by decide)
      exact ⟨_, _, t :: us', Pass.bind_of_error (expect_apply_of_ne _ ht _), hus'⟩

/-! ### Tokens in a gap -/

/-- Before the end of a block, `blockItem` tries a statement, and gives it up if it fails. -/
theorem blockItem_apply {p : Parser (Option Stmt)} {ts : List Token}
    (hbrace : sees [.rightBrace] ts = false) (hend : (next ts).isEnd = false) :
    blockItem p ts = (some <$> recovering Empty.elim p : Parser _) ts := by
  unfold blockItem
  rw [(check_yields_iff.2 ⟨rfl, rfl⟩).bind_apply, (atEnd_yields_iff.2 ⟨rfl, rfl⟩).bind_apply,
    hbrace, hend]
  rfl

/-- A statement is one item that `blockItem` finds. -/
theorem collects_of_statement {n : Nat} {ts rest : List Token} {s? : Option Stmt}
    {log : List (Finding GrammarCause)} (hbrace : sees [.rightBrace] ts = false)
    (hend : (next ts).isEnd = false) (h : statement n ts = ⟨.ok s?, log, rest⟩)
    (hlt : rest.length < ts.length) : Collects (blockItem (statement n)) ts [s?] log rest := by
  have hitem : blockItem (statement n) ts = ⟨.ok (some s?), log, rest⟩ := by
    rw [blockItem_apply hbrace hend, ← bind_pure_comp]
    exact Pass.bind_eq_of_silent (recovering_of_ok h) rfl
  exact collects_singleton hitem hlt

/-- Where the parser for the statements of a block, with this room, finds the tokens `X`, it takes
them for the statements `ss`, with `k` findings, and goes on behind them. -/
structure Inserts (n : Nat) (X : List Token) (ss : List Stmt) (k : Nat) : Prop where
  collects : ∀ rest, ∃ found log, found.filterMap id = ss ∧ log.length = k ∧
    Collects (blockItem (statement n)) (X ++ rest) found log rest
  noElse : ∀ rest, NoElse rest → NoElse (X ++ rest)

/-- What stands at the front of `Inert` tokens and a semicolon begins a statement. -/
theorem sees_next_of_inert {us : List Token} {semi : Token} (hus : ∀ t ∈ us, t.Inert)
    (hsemi : semi.tag = .semicolon) (rest : List Token) :
    sees [.rightBrace] (us ++ semi :: rest) = false ∧ (next (us ++ semi :: rest)).isEnd = false ∧
      NoElse (us ++ semi :: rest) := by
  cases us with
  | nil =>
    refine ⟨sees_cons_eq_false (by simp [hsemi]), by simp [Token.isEnd, hsemi], ?_⟩
    exact noElse_cons_of_tag hsemi (by decide) rest
  | cons t us =>
    obtain ⟨ht, -⟩ := List.forall_mem_cons.1 hus
    have hbrace : t.tag ≠ .rightBrace := ht.tag_ne (by decide)
    exact ⟨sees_cons_eq_false (by simpa using hbrace), ht.isEnd, ht.isKeyword (by decide)⟩

/-- `Inert` tokens that are an `Expression` are taken for one statement. -/
theorem inserts_expression {n : Nat} {us : List Token} {e : Expr} {semi : Token}
    (hus : ∀ t ∈ us, t.Inert) (hsemi : semi.tag = .semicolon) (h : Expression n us e) :
    Inserts n (us ++ [semi]) [.expr e (next us).pos] 0 := by
  constructor
  · intro rest
    obtain ⟨hbrace, hend, -⟩ := sees_next_of_inert hus hsemi rest
    obtain ⟨t, v, rfl, -⟩ := h.1.exists_first
    have hstatement : statement n (t :: v ++ semi :: rest) =
        ⟨.ok (some (.expr e t.pos)), [], rest⟩ := by
      rw [statement_eq]
      exact statementWith_yields_expr h hsemi
    refine ⟨[some (.expr e t.pos)], [], rfl, rfl, ?_⟩
    rw [List.append_assoc]
    exact collects_of_statement hbrace hend hstatement (by simp; omega)
  · intro rest _
    rw [List.append_assoc]
    exact (sees_next_of_inert hus hsemi rest).2.2

/-- `Inert` tokens that are no `Expression` are taken for no statement, with one finding. -/
theorem inserts_of_not_expression {n : Nat} {us : List Token} {semi : Token}
    (hus : ∀ t ∈ us, t.Inert) (hsemi : semi.tag = .semicolon) (hnot : ¬ ∃ e, Expression n us e) :
    Inserts n (us ++ [semi]) [] 1 := by
  constructor
  · intro rest
    obtain ⟨hbrace, hend, -⟩ := sees_next_of_inert hus hsemi rest
    obtain ⟨cause, pos, us', hstatement, hus'⟩ :=
      statement_apply_of_not_expression hus hsemi hnot rest
    -- the statement fails in front of the semicolon, and recovery goes behind it
    have hitem : blockItem (statement n) (us ++ semi :: rest) =
        ⟨.ok (some none), [⟨cause, pos⟩], rest⟩ := by
      rw [blockItem_apply hbrace hend, ← bind_pure_comp]
      refine Pass.bind_eq_of_silent (recovering_of_error hstatement) ?_
      rw [recovered_append hus' hsemi]
      rfl
    refine ⟨[none], [⟨cause, pos⟩], rfl, rfl, ?_⟩
    rw [List.append_assoc]
    exact collects_singleton hitem (by simp; omega)
  · intro rest _
    rw [List.append_assoc]
    exact (sees_next_of_inert hus hsemi rest).2.2

/-! ### From the gap to the program -/

/-- A statement with a `Gap` begins with a keyword, and not with `else`. -/
theorem next_of_statementGap {n : Nat} {A B : List Token} {g : Stmt.Gap} (h : StatementGap n A B g)
    (rest : List Token) :
    sees [.rightBrace] (A ++ rest) = false ∧ (next (A ++ rest)).isEnd = false ∧ NoElse (A ++ rest) ∧
      0 < A.length := by
  have hword : ∀ {t : Token} {word : String} (v : List Token), t.isKeyword [word] = true →
      word ≠ "else" → sees [.rightBrace] (t :: v ++ rest) = false ∧
        (next (t :: v ++ rest)).isEnd = false ∧ NoElse (t :: v ++ rest) ∧ 0 < (t :: v).length := by
    intro t word v ht hne
    obtain ⟨htag, htext⟩ := isKeyword_eq_true_iff.1 ht
    have heq : t.text = word := List.mem_singleton.1 htext
    refine ⟨sees_cons_eq_false (by simp [htag]), by simp [Token.isEnd, htag], ?_, by simp⟩
    simp [NoElse, Token.isKeyword, heq, hne]
  -- blocks are found in statements that begin with a keyword
  cases h with
  | ifThen ht => exact hword _ ht (by decide)
  | ifElseBody ht => exact hword _ ht (by decide)
  | ifElseAlternative ht => exact hword _ ht (by decide)
  | loop ht => exact hword _ ht (by decide)

/-- `Statements` in front of a gap and behind it are read as they would be without it. -/
theorem many_apply_around {n : Nat} {w v us rest : List Token} {r : Token} {ss ss' : List Stmt}
    {found : List (Option Stmt)} {log : List (Finding GrammarCause)} (before : Statements n w ss)
    (after : Statements n v ss') (hr : r.tag = .rightBrace)
    (hmid : Collects (blockItem (statement n)) us found log (v ++ r :: rest)) (helse : NoElse us) :
    many (blockItem (statement n)) (w ++ us) =
      ⟨.ok (ss.map some ++ (found ++ ss'.map some)), log, r :: rest⟩ := by
  have hconsumes := consumes_blockItem (sound_statement n)
  obtain ⟨hbefore, -⟩ := items_of_statements (complete_statement n) helse before
  obtain ⟨hafter, -⟩ := items_of_statements (complete_statement n)
    (noElse_cons_of_tag hr (by decide) rest) after
  have hcollects := (collects_of_items hconsumes hbefore).append
    (hmid.append (collects_of_items hconsumes hafter))
  rw [List.nil_append, List.append_nil] at hcollects
  exact many_apply hconsumes hcollects (blockItem_yields_none_of_brace hr rest)

/-- What was given up is left out between the statements. -/
theorem filterMap_around (ss ss' : List Stmt) (found : List (Option Stmt)) :
    (ss.map some ++ (found ++ ss'.map some)).filterMap id = ss ++ found.filterMap id ++ ss' := by
  simp [List.filterMap_append, List.filterMap_map]

mutual

/-- With tokens in the `Gap` that are taken for `ss`, a statement is read as the statement with `ss`
in the gap. -/
theorem statement_apply_gap {n k : Nat} {X rest : List Token} {ss : List Stmt} (g : Stmt.Gap)
    {A B : List Token} (h : StatementGap n A B g) (hX : Inserts (n - g.depth) X ss k)
    (hrest : NoElse rest) :
    ∃ log, log.length = k ∧
      statement n (A ++ (X ++ (B ++ rest))) = ⟨.ok (some (g.fill ss)), log, rest⟩ := by
  rw [statement_eq]
  match g with
  | .ifThen c g pos =>
    cases h with
    | ifThen hword hl cond hr body =>
      obtain ⟨log, hlog, hbody⟩ := block_apply_gap g body hX rest
      refine ⟨log, hlog, ?_⟩
      simpa [Stmt.Gap.fill] using statementWith_apply_of_keyword hword
        (conditional_apply_ifThen hl cond hr hbody hrest) (.inr (.inl ⟨rfl, rfl⟩))
  | .ifElseBody c g a pos =>
    cases h with
    | @ifElseBody _ _ _ _ other _ _ _ u _ _ _ hword hl cond hr body hother alternative =>
      obtain ⟨log, hlog, hbody⟩ := block_apply_gap g body hX (other :: (u ++ rest))
      refine ⟨log, hlog, ?_⟩
      simpa [Stmt.Gap.fill] using statementWith_apply_of_keyword hword
        (conditional_apply_ifElse hl cond hr hbody hother
          (complete_block n _ _ rest alternative trivial)) (.inr (.inl ⟨rfl, rfl⟩))
  | .ifElseAlternative c b g pos =>
    cases h with
    | ifElseAlternative hword hl cond hr body hother alternative =>
      obtain ⟨log, hlog, halternative⟩ := block_apply_gap g alternative hX rest
      refine ⟨log, hlog, ?_⟩
      simpa [Stmt.Gap.fill] using statementWith_apply_of_keyword hword
        (conditional_apply_ifElse hl cond hr (complete_block n _ _ _ body trivial) hother
          halternative) (.inr (.inl ⟨rfl, rfl⟩))
  | .loop c g pos =>
    cases h with
    | loop hword hl cond hr body =>
      obtain ⟨log, hlog, hbody⟩ := block_apply_gap g body hX rest
      refine ⟨log, hlog, ?_⟩
      simpa [Stmt.Gap.fill] using statementWith_apply_of_keyword hword
        (whileLoop_apply hl cond hr hbody) (.inr (.inr (.inl ⟨rfl, rfl⟩)))

/-- With tokens in the `Gap` that are taken for `ss`, a block is read as the block with `ss` in the
gap. -/
theorem block_apply_gap {n k : Nat} {X : List Token} {ss : List Stmt} (g : Block.Gap)
    {A B : List Token} (h : BlockGap n A B g) (hX : Inserts (n - g.depth) X ss k)
    (rest : List Token) :
    ∃ log, log.length = k ∧
      block n (A ++ (X ++ (B ++ rest))) = ⟨.ok (g.fill ss), log, rest⟩ := by
  match g with
  | .here before after pos =>
    cases h with
    | @here n l r w v _ _ hl hbefore hafter hr =>
      obtain ⟨found, log, rfl, hlog, hcollects⟩ := hX.collects (v ++ r :: rest)
      obtain ⟨-, helse⟩ := items_of_statements (complete_statement n)
        (noElse_cons_of_tag hr (by decide) rest) hafter
      -- the gap is between these statements
      have hmany := many_apply_around hbefore hafter hr hcollects (hX.noElse _ helse)
      have hblock := block_apply hl hmany hr
      rw [filterMap_around] at hblock
      exact ⟨log, hlog, by simpa [Block.Gap.fill] using hblock⟩
  | .within before g after pos =>
    cases h with
    | @within n l r w A B v _ _ _ hl hbefore inner hafter hr =>
      obtain ⟨-, helse⟩ := items_of_statements (complete_statement n)
        (noElse_cons_of_tag hr (by decide) rest) hafter
      -- one block further in, there is one level less of room
      have hdepth : n + 1 - (Block.Gap.within before g after l.pos).depth = n - g.depth := by
        rw [Block.Gap.depth]
        omega
      rw [hdepth] at hX
      obtain ⟨log, hlog, hstatement⟩ := statement_apply_gap g inner hX helse
      obtain ⟨hbrace, hend, hfirst, hlt⟩ :=
        next_of_statementGap inner (X ++ (B ++ (v ++ r :: rest)))
      have hitem := collects_of_statement hbrace hend hstatement (by simp; omega)
      have hmany := many_apply_around hbefore hafter hr hitem hfirst
      have hblock := block_apply hl hmany hr
      rw [filterMap_around] at hblock
      exact ⟨log, hlog, by simpa [Block.Gap.fill] using hblock⟩

end

/-- A function is one item that `programItem` finds. -/
theorem programItem_apply {n : Nat} {ts rest : List Token} {f : Function}
    {log : List (Finding GrammarCause)} (hend : (next ts).isEnd = false)
    (h : function n ts = ⟨.ok f, log, rest⟩) :
    programItem n ts = ⟨.ok (some (some f)), log, rest⟩ := by
  have hsome : (some <$> function n) ts = ⟨.ok (some f), log, rest⟩ := by
    rw [← bind_pure_comp]
    exact Pass.bind_eq_of_silent h rfl
  unfold programItem
  rw [(atEnd_yields_iff.2 ⟨rfl, rfl⟩).bind_apply, hend, if_neg (by decide), ← bind_pure_comp]
  exact Pass.bind_eq_of_silent (recovering_of_ok hsome) rfl

/-- With tokens in the `Gap` that are taken for `ss`, a function is read as the function with `ss`
in the gap. -/
theorem collects_functionGap {n k : Nat} {X A B : List Token} {ss : List Stmt} {g : Function.Gap}
    (h : FunctionGap n A B g) (hX : Inserts (n - g.body.depth) X ss k) (rest : List Token) :
    ∃ log, log.length = k ∧
      Collects (programItem n) (A ++ (X ++ (B ++ rest))) [some (g.fill ss)] log rest := by
  cases h with
  | mk htype hname hl hparams hr body =>
    obtain ⟨log, hlog, hbody⟩ := block_apply_gap _ body hX rest
    have hfunction := function_apply htype hname hl hparams hr hbody
    have hend := (isKeyword_eq_true_iff.1 htype).1
    refine ⟨log, hlog, collects_singleton (programItem_apply ?_ ?_) ?_⟩
    · simp [Token.isEnd, hend]
    · simpa [Function.Gap.fill] using hfunction
    · simp
      omega

/-- `program` holds the functions that were not given up. -/
theorem program_apply {n : Nat} {ts rest : List Token} {found : List (Option Function)}
    {log : List (Finding GrammarCause)} (h : many (programItem n) ts = ⟨.ok found, log, rest⟩) :
    program n ts = ⟨.ok ⟨found.filterMap id, (next ts).pos⟩, log, rest⟩ := by
  unfold program
  rw [(peek_yields_iff.2 ⟨rfl, rfl⟩).bind_apply]
  exact Pass.bind_eq_of_silent h rfl

/-- With tokens in the `Gap` that are taken for `ss`, a program is read as the program with `ss` in
the gap. -/
theorem parse_gap {k : Nat} {X A B : List Token} {ss : List Stmt} {g : Program.Gap}
    (h : ProgramGap A B g) (hX : Inserts (maxNesting - g.depth) X ss k) :
    ∃ log, log.length = k ∧ parse (A ++ (X ++ B)) = (g.fill ss, log) := by
  cases h with
  | @mk u A B v rest fs gs g before inner after hend =>
    have hconsumes := consumes_programItem maxNesting
    obtain ⟨log, hlog, hfunction⟩ := collects_functionGap inner hX (v ++ rest)
    have hbefore := collects_of_items hconsumes
      (items_of_sequence before (A ++ (X ++ (B ++ (v ++ rest)))))
    have hafter := collects_of_items hconsumes (items_of_sequence after rest)
    have hmany := many_apply hconsumes (hbefore.append (hfunction.append hafter))
      (programItem_yields_none_iff.2 ⟨hend, rfl⟩)
    rw [List.nil_append, List.append_nil] at hmany
    have hprogram := program_apply hmany
    -- the program stands at its first token, which lies in front of the gap
    have hpos : (next (u ++ (A ++ (X ++ (B ++ (v ++ rest)))))).pos =
        ((u ++ A).headD .beyond).pos := by
      obtain ⟨t, A, rfl⟩ := inner.exists_cons
      cases u <;> rfl
    refine ⟨log, hlog, ?_⟩
    have htokens : u ++ A ++ (X ++ (B ++ v ++ rest)) = u ++ (A ++ (X ++ (B ++ (v ++ rest)))) := by
      simp
    rw [htokens, parse, hprogram, hpos]
    simp [Outcome.get, Program.Gap.fill, List.filterMap_append, List.filterMap_map]

end Parser

open Tricode.Parser Grammar

/-- Tokens that are `Inert`, with a semicolon behind them, put into a `Gap` of a program in which
nothing is wrong, are one more statement if they are an `Expression`. Otherwise there is one
finding, and the program is what it was. Each gap of the program, a `ProgramGap`, lies between two
of its tokens. -/
theorem parse_insert (ts : List Token) (g : Program.Gap) (h : parse ts = (g.fill [], [])) :
    (∃ A B, ts = A ++ B ∧ ProgramGap A B g) ∧
      ∀ A B, ts = A ++ B → ProgramGap A B g →
        ∀ (us : List Token) (semi : Token), (∀ t ∈ us, t.Inert) → semi.tag = .semicolon →
          (∀ e, Expression (50 - g.depth) us e →
            parse (A ++ us ++ semi :: B) = (g.fill [.expr e (next us).pos], [])) ∧
          ((¬ ∃ e, Expression (50 - g.depth) us e) →
            ∃ finding, parse (A ++ us ++ semi :: B) = (g.fill [], [finding])) := by
  obtain ⟨rest, hyields⟩ := parse_eq_iff_yields.1 h
  obtain ⟨w, rfl, hsequence, hpos, hend⟩ := program_yields_iff.1 hyields
  refine ⟨exists_programGap hsequence hend hpos, ?_⟩
  intro A B _ hgap us semi hus hsemi
  -- the tokens in the gap are those of one statement, with its semicolon
  have htokens : A ++ us ++ semi :: B = A ++ (us ++ [semi] ++ B) := by simp
  rw [htokens]
  constructor
  · intro e he
    obtain ⟨log, hlog, hparse⟩ := parse_gap hgap (inserts_expression hus hsemi he)
    rw [hparse, List.length_eq_zero_iff.1 hlog]
  · intro hnot
    obtain ⟨log, hlog, hparse⟩ := parse_gap hgap (inserts_of_not_expression hus hsemi hnot)
    obtain ⟨finding, rfl⟩ := List.length_eq_one_iff.1 hlog
    exact ⟨finding, hparse⟩

/-- `int f() { while (x) { y; } }`, one token a column. -/
def looping : List Token :=
  [⟨.keyword, "int", ⟨1, 1⟩⟩, ⟨.identifier, "f", ⟨1, 2⟩⟩, ⟨.leftParen, "(", ⟨1, 3⟩⟩,
    ⟨.rightParen, ")", ⟨1, 4⟩⟩, ⟨.leftBrace, "\x7b", ⟨1, 5⟩⟩, ⟨.keyword, "while", ⟨1, 6⟩⟩,
    ⟨.leftParen, "(", ⟨1, 7⟩⟩, ⟨.identifier, "x", ⟨1, 8⟩⟩, ⟨.rightParen, ")", ⟨1, 9⟩⟩,
    ⟨.leftBrace, "\x7b", ⟨1, 10⟩⟩, ⟨.identifier, "y", ⟨1, 11⟩⟩, ⟨.semicolon, ";", ⟨1, 12⟩⟩,
    ⟨.rightBrace, "\x7d", ⟨1, 13⟩⟩, ⟨.rightBrace, "\x7d", ⟨1, 14⟩⟩, .endAt ⟨1, 15⟩]

/-- The gap behind the statement in the loop. -/
def loopingGap : Program.Gap :=
  let body : Block.Gap := .here [.expr (.ident "y" ⟨1, 11⟩) ⟨1, 11⟩] [] ⟨1, 10⟩
  ⟨[], ⟨.int, "f", [], .within [] (.loop (.ident "x" ⟨1, 8⟩) body ⟨1, 6⟩) [] ⟨1, 5⟩, ⟨1, 1⟩⟩, [],
    ⟨1, 1⟩⟩

/-- `z;` is one more statement in the loop, and `z +;` is dropped. -/
theorem parse_insert_looping :
    parse looping = (loopingGap.fill [], []) ∧
      ∃ A B, looping = A ++ B ∧
        parse (A ++ [⟨.identifier, "z", ⟨2, 1⟩⟩] ++ ⟨.semicolon, ";", ⟨2, 3⟩⟩ :: B) =
          (loopingGap.fill [.expr (.ident "z" ⟨2, 1⟩) ⟨2, 1⟩], []) ∧
        ∃ finding, parse (A ++ [⟨.identifier, "z", ⟨2, 1⟩⟩, ⟨.plus, "+", ⟨2, 2⟩⟩] ++
          ⟨.semicolon, ";", ⟨2, 3⟩⟩ :: B) = (loopingGap.fill [], [finding]) := by
  obtain ⟨⟨A, B, heq, hgap⟩, hinsert⟩ := parse_insert looping loopingGap rfl
  refine ⟨rfl, A, B, heq, ?_, ?_⟩
  · refine (hinsert A B heq hgap _ _ (by decide) rfl).1 _ ?_
    have hyields : (expression 48 : Parser Measured).Yields [⟨.identifier, "z", ⟨2, 1⟩⟩]
        (leaf (.ident "z" ⟨2, 1⟩)) [] :=
      rfl
    obtain ⟨w, hw, hexpression⟩ := expression_of_yields hyields
    rw [List.append_nil] at hw
    exact hw ▸ hexpression
  · refine (hinsert A B heq hgap _ _ (by decide) rfl).2 ?_
    rintro ⟨e, he⟩
    have hyields : (expression 48 : Parser Measured).Yields
        [⟨.identifier, "z", ⟨2, 1⟩⟩, ⟨.plus, "+", ⟨2, 2⟩⟩, ⟨.semicolon, ";", ⟨2, 3⟩⟩] (measure e)
        [⟨.semicolon, ";", ⟨2, 3⟩⟩] := yields_of_expression he (.inr (.inr rfl))
    have hlog := congrArg (fun r => r.log.length) hyields
    cases hlog

end Tricode
