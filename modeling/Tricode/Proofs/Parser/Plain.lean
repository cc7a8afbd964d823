import Tricode.Proofs.Grammar.Expr

/-!
# Expressions fail once, and inside a statement

The parsers for expressions do not recover: the first failure ends them. So they log nothing when
they succeed, and when they fail, they log this one failure and nothing else. On the way they only
go past tokens that can stand in an expression, which are inert: a semicolon, a brace, the end of
the text and the keywords of statements are never taken (`plain_expression`).

`Parser.Plain p ts` says so about a run from `ts`. In a sequence, what stands behind is only asked
about the runs that really reach it (`Plain.bind`), since which token is taken may depend on a look
at it.
-/

namespace Tricode

/-- The token may stand in an expression: it is not a semicolon, a brace or the end, and if it is a
keyword, then a truth value. -/
def Token.Inert (t : Token) : Prop :=
  t.tag ∉ [.semicolon, .leftBrace, .rightBrace, .eof] ∧
    (t.tag = .keyword → t.text ∈ Parser.truthWords)

instance (t : Token) : Decidable t.Inert :=
  inferInstanceAs (Decidable (_ ∧ _))

/-- A tag all of whose tokens may stand in an expression. -/
def Tag.Inert (tag : Tag) : Prop :=
  tag ∉ [.keyword, .semicolon, .leftBrace, .rightBrace, .eof]

instance (tag : Tag) : Decidable tag.Inert :=
  inferInstanceAs (Decidable (¬ _))

/-- A token with an `Inert` tag is inert. -/
theorem Tag.Inert.token {t : Token} (h : t.tag.Inert) : t.Inert := by
  rw [Tag.Inert, List.mem_cons, not_or] at h
  exact ⟨h.2, fun hword => absurd hword h.1⟩

namespace Parser

variable {α β : Type}

/-- From `ts` the parser goes past inert tokens only. It logs nothing if it succeeds; if it fails,
it logs its failure and nothing else. -/
structure Plain (p : Parser α) (ts : List Token) : Prop where
  reads : ∃ w, ts = w ++ (p ts).state ∧ ∀ t ∈ w, t.Inert
  silent : ∀ a, (p ts).value = .ok a → (p ts).log = []
  reports : ∀ e, (p ts).value = .error e → ∃ pos, (p ts).log = [⟨e, pos⟩]

/-! ### Sequences and loops -/

/-- A `Plain` parser that succeeds `Yields` its value. -/
theorem Plain.yields {p : Parser α} {ts : List Token} (h : Plain p ts) {a : α}
    (ha : (p ts).value = .ok a) : p.Yields ts a (p ts).state :=
  Outcome.eq_mk ha (h.silent a ha) rfl

/-- Only the run from `ts` matters. -/
theorem Plain.congr {p q : Parser α} {ts : List Token} (hp : Plain p ts) (h : q ts = p ts) :
    Plain q ts := by
  obtain ⟨hreads, hsilent, hreports⟩ := hp
  rw [← h] at hreads hsilent hreports
  exact ⟨hreads, hsilent, hreports⟩

/-- A parser that `Yields` a value behind `Inert` tokens is `Plain`. -/
theorem plain_of_yields {p : Parser α} {a : α} {w rest : List Token}
    (h : p.Yields (w ++ rest) a rest) (hw : ∀ t ∈ w, t.Inert) : Plain p (w ++ rest) := by
  constructor
  · exact ⟨w, by rw [h], hw⟩
  · intro a' _
    rw [h]
  · intro e he
    rw [h] at he
    cases he

theorem plain_of_yields_self {p : Parser α} {a : α} {ts : List Token} (h : p.Yields ts a ts) :
    Plain p ts :=
  plain_of_yields (w := []) h nofun

theorem plain_pure (a : α) (ts : List Token) : Plain (pure a) ts :=
  plain_of_yields_self rfl

theorem plain_failAt (cause : GrammarCause) (t : Token) (ts : List Token) :
    Plain (failAt cause t : Parser α) ts := by
  refine ⟨⟨[], rfl, nofun⟩, fun a ha => ?_, fun e he => ⟨t.pos, ?_⟩⟩
  · cases ha
  · cases he
    rfl

/-- One `Plain` parser behind the other. -/
theorem Plain.bind {p : Parser α} {f : α → Parser β} {ts : List Token} (hp : Plain p ts)
    (hf : ∀ a rest, p.Yields ts a rest → Plain (f a) rest) : Plain (p >>= f) ts := by
  obtain ⟨w, hw, hinert⟩ := hp.reads
  -- if the first parser fails, the second one adds nothing to what it has reported
  cases hvalue : (p ts).value with
  | error e =>
    have hbind : (p >>= f) ts = ⟨.error e, (p ts).log, (p ts).state⟩ :=
      Pass.bind_of_error (Outcome.eq_mk hvalue rfl rfl)
    refine ⟨⟨w, by rw [hbind]; exact hw, hinert⟩, fun a ha => ?_, fun e' he' => ?_⟩
    · rw [hbind] at ha
      cases ha
    · rw [hbind] at he' ⊢
      cases he'
      exact hp.reports e hvalue
  | ok a =>
    have hyields := hp.yields hvalue
    have hbind : (p >>= f) ts = f a (p ts).state := hyields.bind_apply
    obtain ⟨⟨v, hv, hinert'⟩, hsilent, hreports⟩ := hf a _ hyields
    refine ⟨⟨w ++ v, ?_, List.forall_mem_append.2 ⟨hinert, hinert'⟩⟩, ?_, ?_⟩
    · rw [hbind, List.append_assoc, ← hv]
      exact hw
    · rw [hbind]
      exact hsilent
    · rw [hbind]
      exact hreports

theorem Plain.map {p : Parser α} {ts : List Token} (hp : Plain p ts) (f : α → β) :
    Plain (f <$> p) ts := by
  rw [← bind_pure_comp]
  exact hp.bind fun a rest _ => plain_pure (f a) rest

/-- A loop whose steps are `Plain` makes no steps behind the first failure. -/
theorem plain_loop {step : α → Parser (Option α)} (hstep : ∀ a ts, Plain (step a) ts) (a : α)
    (ts : List Token) : Plain (loop step a) ts := by
  suffices h : ∀ (room : List Token) (a : α) (ts : List Token),
      Plain (fun ts => loopFrom step room a ts []) ts from (h ts a ts).congr rfl
  intro room
  induction room with
  | nil => exact fun a ts => plain_pure a ts
  | cons t room ih =>
    intro a ts
    -- with one more token of room, a loop is a step with the other steps behind it
    have heq : (fun ts => loopFrom step (t :: room) a ts []) =
        (step a >>= fun a? => a?.elim (pure a) fun a' ts =>
          loopFrom step room a' ts [] : Parser α) := by
      funext ts
      simp only [loopFrom, bind]
      cases hs : step a ts with
      | mk value new rest =>
        cases value with
        | error e => simp
        | ok a? =>
          cases a? with
          | none =>
            change _ = Outcome.mk (.ok a) (new ++ []) rest
            simp
          | some a' =>
            change _ = Outcome.mk (loopFrom step room a' rest []).value
              (new ++ (loopFrom step room a' rest []).log) (loopFrom step room a' rest []).state
            simp only
            rw [loopFrom_log]
            simp
    rw [heq]
    refine (hstep a ts).bind fun a? rest _ => ?_
    cases a? with
    | none => exact plain_pure a rest
    | some a' => exact ih a' rest

theorem plain_many {item : Parser (Option α)} (hitem : ∀ ts, Plain item ts) (ts : List Token) :
    Plain (many item) ts := by
  refine (plain_loop (fun found ts => (hitem ts).bind fun a? rest _ => ?_) [] ts).bind
    fun found rest _ => plain_pure _ rest
  cases a? with
  | none => exact plain_pure _ rest
  | some a => exact plain_pure _ rest

/-! ### Tokens -/

theorem plain_peek (ts : List Token) : Plain peek ts :=
  plain_of_yields_self (peek_yields_iff.2 ⟨rfl, rfl⟩)

theorem plain_check (tag : Tag) (ts : List Token) : Plain (check tag) ts :=
  plain_of_yields_self (check_yields_iff.2 ⟨rfl, rfl⟩)

theorem plain_skip {t : Token} (ht : t.Inert) (ts : List Token) : Plain skip (t :: ts) :=
  plain_of_yields (w := [t]) (a := ()) (skip_yields_iff.2 rfl) (List.forall_mem_singleton.2 ht)

/-- Accepting tokens is `Plain` if their tags are `Inert`. -/
theorem plain_accept {tags : List Tag} (htags : ∀ tag ∈ tags, tag.Inert) (ts : List Token) :
    Plain (accept tags) ts := by
  cases ts with
  | nil => exact plain_of_yields_self (accept_yields_none_iff.2 ⟨rfl, rfl⟩)
  | cons t ts =>
    cases hsees : sees tags (t :: ts) with
    | false => exact plain_of_yields_self (accept_yields_none_iff.2 ⟨hsees, rfl⟩)
    | true =>
      obtain ⟨hend, htag⟩ := sees_cons_eq_true_iff.1 hsees
      refine plain_of_yields (w := [t]) (accept_yields_some_iff.2 ⟨rfl, hend, htag⟩) ?_
      exact List.forall_mem_singleton.2 (htags _ htag).token

theorem plain_expect {tag : Tag} (htag : tag.Inert) (cause : GrammarCause) (ts : List Token) :
    Plain (expect tag cause) ts := by
  refine (plain_accept (List.forall_mem_singleton.2 htag) ts).bind fun t? rest _ => ?_
  cases t? with
  | none => exact (plain_peek rest).bind fun t rest _ => plain_failAt cause t rest
  | some t => exact plain_pure t rest

theorem plain_behind {tags : List Tag} (htags : ∀ tag ∈ tags, tag.Inert)
    {further : Token → Parser α}
    (h : ∀ t ts, Plain (further t) ts) (ts : List Token) : Plain (behind tags further) ts := by
  refine (plain_accept htags ts).bind fun t? rest _ => ?_
  cases t? with
  | none => exact plain_pure none rest
  | some t => exact (h t rest).map some

theorem plain_nested {what : Construct} {inner : Option (Parser α)} {opening : Token}
    {body : Parser α → Parser β} (h : ∀ p, inner = some p → ∀ ts, Plain (body p) ts)
    (ts : List Token) : Plain (nested what inner opening body) ts := by
  cases inner with
  | none => exact plain_failAt _ opening ts
  | some p => exact h p rfl ts

theorem plain_listed {item : Parser α} (hitem : ∀ ts, Plain item ts) (ts : List Token) :
    Plain (listed item) ts := by
  refine (plain_check _ ts).bind fun b rest _ => ?_
  cases b with
  | true => exact plain_pure [] rest
  | false =>
    refine (hitem rest).bind fun first rest _ => (plain_many ?_ rest).bind fun others rest _ =>
      plain_pure _ rest
    exact plain_behind (by decide) fun _ => hitem

/-! ### Expressions -/

theorem plain_compound (e : Expr) (below : Nat) (t : Token) (ts : List Token) :
    Plain (compound e below t) ts := by
  unfold compound
  split
  · exact plain_failAt _ t ts
  · exact plain_pure _ ts

section

variable {inner : Option (Parser Measured)}

theorem plain_primary (h : ∀ p, inner = some p → ∀ ts, Plain p ts) (ts : List Token) :
    Plain (primary inner) ts := by
  refine (plain_peek ts).bind fun t rest hpeek => ?_
  obtain ⟨rfl, rfl⟩ := peek_yields_iff.1 hpeek
  cases rest with
  | nil => exact plain_failAt _ _ []
  | cons t ts =>
    -- the token that was looked at is the one that is skipped
    have hskip : ∀ m : Measured, t.Inert → Plain (do skip; pure m : Parser Measured) (t :: ts) :=
      fun m ht => (plain_skip ht ts).bind fun _ rest _ => plain_pure m rest
    rw [next_cons]
    split
    · next hword =>
      obtain ⟨htag, htext⟩ := isKeyword_eq_true_iff.1 hword
      exact hskip _ ⟨by rw [htag]; decide, fun _ => htext⟩
    · split
      · next htag => exact hskip _ (Tag.Inert.token (by rw [htag]; decide))
      · next htag => exact hskip _ (Tag.Inert.token (by rw [htag]; decide))
      · next htag => exact hskip _ (Tag.Inert.token (by rw [htag]; decide))
      · next htag =>
        refine (plain_skip (Tag.Inert.token (by rw [htag]; decide)) ts).bind fun _ rest _ => ?_
        exact (plain_nested h rest).bind fun e rest _ =>
          (plain_expect (by decide) _ rest).bind fun _ rest _ => plain_pure e rest
      · exact plain_failAt _ t _

theorem plain_arguments (h : ∀ p, inner = some p → ∀ ts, Plain p ts) (callee : Measured)
    (paren : Token) (ts : List Token) : Plain (arguments inner callee paren) ts :=
  (plain_nested (fun p hp => plain_listed (h p hp)) ts).bind fun _ rest _ =>
    (plain_expect (by decide) _ rest).bind fun _ rest _ => plain_compound _ _ paren rest

theorem plain_call (h : ∀ p, inner = some p → ∀ ts, Plain p ts) (ts : List Token) :
    Plain (call inner) ts := by
  rw [call_eq]
  exact (plain_primary h ts).bind fun callee rest _ => plain_loop (fun callee =>
    plain_behind (by decide) (plain_arguments h callee)) callee rest

theorem plain_prefixes (ops : List Token) (operand : Measured) (ts : List Token) :
    Plain (ops.foldlM (fun operand op =>
      compound (.unary op.text operand.expr op.pos) operand.depth op) operand) ts := by
  induction ops generalizing operand ts with
  | nil => exact plain_pure operand ts
  | cons op ops ih => exact (plain_compound _ _ op ts).bind fun operand' rest _ => ih operand' rest

theorem plain_unary (h : ∀ p, inner = some p → ∀ ts, Plain p ts) (ts : List Token) :
    Plain (unary inner) ts :=
  (plain_many (plain_accept (by decide)) ts).bind fun _ rest _ =>
    (plain_call h rest).bind fun operand rest _ => plain_prefixes _ operand rest

theorem plain_operation {operand : Parser Measured} (h : ∀ ts, Plain operand ts) (left : Measured)
    (op : Token) (ts : List Token) : Plain (operation operand left op) ts :=
  (h ts).bind fun _ rest _ => plain_compound _ _ op rest

/-- Operations are `Plain` if their operators are `Inert`. -/
theorem plain_binary (h : ∀ p, inner = some p → ∀ ts, Plain p ts) {tighter : List (List Tag)}
    (htighter : ∀ ops ∈ tighter, ∀ tag ∈ ops, tag.Inert) (ts : List Token) :
    Plain (binary inner tighter) ts := by
  induction tighter generalizing ts with
  | nil => exact plain_unary h ts
  | cons ops tighter ih =>
    obtain ⟨hops, hrest⟩ := List.forall_mem_cons.1 htighter
    rw [binary, chain_eq]
    exact (ih hrest ts).bind fun first rest _ => plain_loop (fun left =>
      plain_behind hops (plain_operation (ih hrest) left)) first rest

theorem plain_assignment (h : ∀ p, inner = some p → ∀ ts, Plain p ts) (ts : List Token) :
    Plain (assignment inner) ts := by
  refine (plain_binary h (by decide) ts).bind fun target rest _ =>
    (plain_accept (by decide) rest).bind fun t? rest _ => ?_
  cases t? with
  | none => exact plain_pure target rest
  | some sign =>
    refine (plain_nested h rest).bind fun value rest _ => ?_
    split
    · exact plain_compound _ _ sign rest
    · exact plain_failAt _ sign rest

end

/-- An `expression` is `Plain`: it goes past inert tokens only, and reports one failure at most. -/
theorem plain_expression (room : Nat) (ts : List Token) : Plain (expression room) ts := by
  induction room generalizing ts with
  | zero => exact plain_assignment (fun _ hp => by cases hp) ts
  | succ room ih => exact plain_assignment (fun p hp => Option.some.inj hp ▸ ih) ts

end Parser

end Tricode
