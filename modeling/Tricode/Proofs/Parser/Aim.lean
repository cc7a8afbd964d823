import Tricode.Proofs.Parser.Locality

/-!
# Where expressions fail

Let the tokens be numbered, so that their numbers grow along the list (`Parser.Row`); the number of
a token is written in the column of its position. A parser that does not recover reports once, when
it fails. The token it blames is the next one, or one that it has taken itself: an operator, an
opening parenthesis or an assignment sign, once what stands behind it turns out to be too deep or
not to fit. So a failure lies between the token at which the parser began and the one at which it
stopped.

`Parser.Aims stop lo p ts` says so about a run from `ts`, with `lo` for the number that bounds the
failure from below. A parser to which a taken token is handed may blame that token, and so has the
token's number for its bound (`aims_compound`, `aims_nested`); whoever took the token began no later
(`aims_behind`).
-/

namespace Tricode

/-- The number that is written in the column. -/
def Pos.number (p : Pos) : Nat :=
  p.column.toNat

namespace Parser

open Pass

variable {α β ε : Type}

/-! ### Rows of tokens -/

/-- The number of the next token. -/
def front (ts : List Token) : Nat :=
  (next ts).pos.number

/-- The numbers of the tokens grow, and there is an end token, with the number `stop`. -/
structure Row (stop : Nat) (ts : List Token) : Prop where
  ascending : ts.Pairwise fun t u => t.pos.number < u.pos.number
  closed : ∃ t ∈ ts, t.isEnd = true
  last : ∀ t ∈ ts, t.isEnd = true → t.pos.number = stop

section

variable {stop : Nat} {ts w : List Token} {t : Token}

/-- A `Row` has a next token. -/
theorem Row.exists_cons (h : Row stop ts) : ∃ us, ts = next ts :: us := by
  obtain ⟨t, ht, -⟩ := h.closed
  cases ts with
  | nil => cases ht
  | cons t us => exact ⟨us, rfl⟩

/-- In a `Row` the next token has the least number. -/
theorem Row.front_le (h : Row stop ts) (ht : t ∈ ts) : front ts ≤ t.pos.number := by
  obtain ⟨us, hus⟩ := h.exists_cons
  have hascending := h.ascending
  rw [hus] at ht hascending
  rcases List.mem_cons.1 ht with rfl | ht
  · exact Nat.le_refl _
  · exact Nat.le_of_lt (List.rel_of_pairwise_cons hascending ht)

/-- In a `Row` no token comes behind the end. -/
theorem Row.front_le_stop (h : Row stop ts) : front ts ≤ stop := by
  obtain ⟨t, ht, hend⟩ := h.closed
  rw [← h.last t ht hend]
  exact h.front_le ht

/-- In a `Row` the end is reached at its number, and not before. -/
theorem Row.isEnd_iff (h : Row stop ts) : (next ts).isEnd = true ↔ front ts = stop := by
  obtain ⟨us, hus⟩ := h.exists_cons
  have hmem : next ts ∈ ts := by
    rw [hus]
    exact List.mem_cons_self
  refine ⟨fun hend => h.last _ hmem hend, fun hfront => ?_⟩
  obtain ⟨t, ht, hend⟩ := h.closed
  have hcolumn := h.last t ht hend
  have hascending := h.ascending
  rw [hus] at ht hascending
  rcases List.mem_cons.1 ht with rfl | ht
  · exact hend
  · have hlt : front ts < t.pos.number := List.rel_of_pairwise_cons hascending ht
    omega

/-- Where tokens in front of the end have been taken, the others are a `Row` again. -/
theorem Row.of_append (h : Row stop (w ++ ts)) (hw : ∀ t ∈ w, t.isEnd = false) : Row stop ts where
  ascending := (List.pairwise_append.1 h.ascending).2.1
  closed := by
    obtain ⟨t, ht, hend⟩ := h.closed
    rcases List.mem_append.1 ht with ht | ht
    · rw [hw t ht] at hend
      cases hend
    · exact ⟨t, ht, hend⟩
  last t ht := h.last t (List.mem_append_right _ ht)

/-- A token that has been taken from a `Row` lies before the next one. -/
theorem Row.lt_front_of_append (h : Row stop (w ++ ts)) (hw : ∀ t ∈ w, t.isEnd = false)
    (ht : t ∈ w) :
    t.pos.number < front ts := by
  obtain ⟨us, hus⟩ := (h.of_append hw).exists_cons
  have hmem : next ts ∈ ts := by
    rw [hus]
    exact List.mem_cons_self
  exact (List.pairwise_append.1 h.ascending).2.2 t ht _ hmem

/-- The `front` of a row moves on where tokens are taken. -/
theorem Row.front_append_le (h : Row stop (w ++ ts)) (hw : ∀ t ∈ w, t.isEnd = false) :
    front (w ++ ts) ≤ front ts := by
  cases w with
  | nil => exact Nat.le_refl _
  | cons t w => exact Nat.le_of_lt (h.lt_front_of_append hw List.mem_cons_self)

/-- A token that does not end the text may be taken from a `Row`. -/
theorem Row.tail {t : Token} (h : Row stop (t :: ts)) (ht : t.isEnd = false) :
    Row stop ts ∧ t.pos.number < front ts :=
  have hw : ∀ u ∈ [t], u.isEnd = false := List.forall_mem_singleton.2 ht
  ⟨h.of_append (w := [t]) hw, h.lt_front_of_append (w := [t]) hw List.mem_cons_self⟩

/-- A local run leaves a `Row` behind, and goes forward in it. -/
theorem Row.of_local (h : Row stop ts) {p : Reader ε α} (hp : Local p ts) :
    Row stop (p ts).state ∧ front ts ≤ front (p ts).state := by
  obtain ⟨w, hw, hend⟩ := hp.reads
  rw [hw] at h
  refine ⟨h.of_append hend, ?_⟩
  have hle := h.front_append_le hend
  rwa [← hw] at hle

end

/-! ### Aimed failures -/

/-- What the run reports is its failure, about a token from the number `lo` on up to the next
one. -/
structure Aimed (lo : Nat) (r : Outcome (List Token) (Finding GrammarCause) ε α) : Prop where
  silent : ∀ a, r.value = .ok a → r.log = []
  reports : ∀ e, r.value = .error e →
    ∃ f, r.log = [f] ∧ lo ≤ f.pos.number ∧ f.pos.number ≤ front r.state

/-- From `ts`, if it is a row that begins no earlier than with the number `lo`, the run is aimed. -/
def Aims (stop lo : Nat) (p : Reader ε α) (ts : List Token) : Prop :=
  Row stop ts → lo ≤ front ts → Aimed lo (p ts)

section

variable {stop lo : Nat}

/-- A run that succeeds and reports nothing is `Aimed`. -/
theorem aimed_ok (a : α) (ts : List Token) :
    Aimed lo (⟨.ok a, [], ts⟩ : Outcome (List Token) (Finding GrammarCause) ε α) :=
  ⟨fun _ _ => rfl, fun _ he => by cases he⟩

/-- A run that fails with one finding is `Aimed` if the finding is about a token in between. -/
theorem aimed_error {f : Finding GrammarCause} {ts : List Token} (e : ε) (hge : lo ≤ f.pos.number)
    (hle : f.pos.number ≤ front ts) :
    Aimed lo (⟨.error e, [f], ts⟩ : Outcome (List Token) (Finding GrammarCause) ε α) :=
  ⟨fun _ ha => (by cases ha), fun _ _ => ⟨f, rfl, hge, hle⟩⟩

theorem Aimed.mono {lo' : Nat} {r : Outcome (List Token) (Finding GrammarCause) ε α}
    (h : Aimed lo' r) (hle : lo ≤ lo') : Aimed lo r := by
  refine ⟨h.silent, fun e he => ?_⟩
  obtain ⟨f, hlog, hge, hfront⟩ := h.reports e he
  exact ⟨f, hlog, Nat.le_trans hle hge, hfront⟩

/-- A parser that `Yields` a value `Aims`, since it reports nothing. -/
theorem aims_of_yields {p : Reader ε α} {ts rest : List Token} {a : α} (h : p.Yields ts a rest) :
    Aims stop lo p ts := by
  intro _ _
  rw [h]
  exact aimed_ok a rest

theorem aims_pure (a : α) (ts : List Token) : Aims stop lo (pure a : Reader ε α) ts :=
  aims_of_yields (a := a) rfl

/-- `failAt` a token `Aims` if the token is the bound. -/
theorem aims_failAt (cause : GrammarCause) (t : Token) (ts : List Token) :
    Aims stop t.pos.number (failAt cause t : Parser α) ts := by
  intro _ hlo
  exact aimed_error cause (Nat.le_refl _) hlo

/-- One parser that `Aims` behind the other, from what the first one leaves. -/
theorem Aims.bind {p : Reader ε α} {f : α → Reader ε β} {ts : List Token} (hp : Aims stop lo p ts)
    (hlocal : Local p ts) (hf : ∀ a rest, p.Yields ts a rest → Aims stop lo (f a) rest) :
    Aims stop lo (p >>= f) ts := by
  intro hrow hlo
  obtain ⟨hrest, hle⟩ := hrow.of_local hlocal
  have haimed := hp hrow hlo
  cases hr : p ts with
  | mk value log rest =>
    rw [hr] at haimed hrest hle
    -- the first parser fails with its own finding, or it succeeds and has reported nothing
    cases value with
    | error e =>
      obtain ⟨f, rfl, hge, hle⟩ := haimed.reports e rfl
      rw [bind_of_error hr]
      exact aimed_error e hge hle
    | ok a =>
      obtain rfl : log = [] := haimed.silent a rfl
      have hyields : p.Yields ts a rest := hr
      rw [hyields.bind_apply]
      exact hf a rest hyields hrest (Nat.le_trans hlo hle)

theorem Aims.map {p : Reader ε α} {ts : List Token} (hp : Aims stop lo p ts) (hlocal : Local p ts)
    (f : α → β) : Aims stop lo (f <$> p) ts := by
  rw [← bind_pure_comp]
  exact hp.bind hlocal fun a rest _ => aims_pure (f a) rest

/-- Behind a token that was taken, a run is `Aimed` if the token's number bounds it. -/
theorem Aims.of_cons {p : Reader ε α} {t : Token} {ts : List Token} (ht : t.isEnd = false)
    (hp : Aims stop t.pos.number p ts) (hrow : Row stop (t :: ts)) (hlo : lo ≤ t.pos.number) :
    Aimed lo (p ts) := by
  obtain ⟨hrest, hlt⟩ := hrow.tail ht
  exact (hp hrest (Nat.le_of_lt hlt)).mono hlo

/-! ### Single tokens -/

theorem aims_peek (ts : List Token) : Aims stop lo (peek : Reader ε Token) ts :=
  aims_of_yields (peek_yields_iff.2 ⟨rfl, rfl⟩)

theorem aims_check (tag : Tag) (ts : List Token) : Aims stop lo (check tag : Reader ε Bool) ts :=
  aims_of_yields (check_yields_iff.2 ⟨rfl, rfl⟩)

/-- `failAt` the next token `Aims` in any case. -/
theorem aims_failNext (cause : GrammarCause) (ts : List Token) :
    Aims stop lo (failAt cause (next ts) : Parser α) ts := by
  intro _ hlo
  exact aimed_error cause hlo (Nat.le_refl _)

/-- Behind `skip`, the token that was skipped may be blamed. -/
theorem aims_skip {q : Parser α} {t : Token} {ts : List Token} (ht : t.isEnd = false)
    (hq : Aims stop t.pos.number q ts) : Aims stop lo (do skip; q : Parser α) (t :: ts) := by
  intro hrow hlo
  have hskip : (skip : Parser Unit).Yields (t :: ts) () ts := rfl
  rw [hskip.bind_apply]
  exact hq.of_cons ht hrow hlo

/-- A parser that `Picks` takes a token from the front, or does nothing. -/
theorem Picks.yields_cases {kind : Token → Bool} {p : Reader ε (Option Token)} (h : Picks kind p)
    (ts : List Token) :
    p.Yields ts none ts ∨ ∃ t rest, ts = t :: rest ∧ t.isEnd = false ∧
      p.Yields ts (some t) rest := by
  by_cases hts : kind (next ts) = true
  · obtain ⟨t, rest, rfl⟩ := h.exists_cons hts
    exact .inr ⟨t, rest, rfl, h.isEnd t hts, h.apply_cons hts rest⟩
  · refine .inl ?_
    rw [Pass.Yields, h.apply, if_neg hts]

/-- A parser that `Picks` reports nothing. -/
theorem Picks.aims {kind : Token → Bool} {p : Reader ε (Option Token)} (h : Picks kind p)
    (ts : List Token) : Aims stop lo p ts := by
  rcases h.yields_cases ts with hnone | ⟨t, rest, -, -, hsome⟩
  · exact aims_of_yields hnone
  · exact aims_of_yields hsome

/-- What goes on with a token that a parser `Picks` may blame it. -/
theorem Picks.aims_bind {kind : Token → Bool} {p : Parser (Option Token)} (h : Picks kind p)
    {f : Option Token → Parser α} {ts : List Token} (hnone : Aims stop lo (f none) ts)
    (hsome : ∀ t rest, Aims stop t.pos.number (f (some t)) rest) : Aims stop lo (p >>= f) ts := by
  intro hrow hlo
  rcases h.yields_cases ts with hpick | ⟨t, rest, rfl, hend, hpick⟩
  · rw [hpick.bind_apply]
    exact hnone hrow hlo
  · rw [hpick.bind_apply]
    exact (hsome t rest).of_cons hend hrow hlo

/-- A token that `expect` misses is reported about the next one. -/
theorem aims_expect (tag : Tag) (cause : GrammarCause) (ts : List Token) :
    Aims stop lo (expect tag cause) ts :=
  (picks_accept [tag]).aims_bind (aims_failNext cause ts) fun t rest => aims_pure t rest

theorem aims_expectKeyword (words : List String) (cause : GrammarCause) (ts : List Token) :
    Aims stop lo (expectKeyword words cause) ts :=
  (picks_acceptKeyword words).aims_bind (aims_failNext cause ts) fun t rest => aims_pure t rest

/-- `behind` the token that decided, the token itself may be blamed. -/
theorem aims_behind {tags : List Tag} {further : Token → Parser α}
    (hlocal : ∀ t ts, Local (further t) ts) (h : ∀ t ts, Aims stop t.pos.number (further t) ts)
    (ts : List Token) : Aims stop lo (behind tags further) ts :=
  (picks_accept tags).aims_bind (aims_pure none ts) fun t rest =>
    (h t rest).map (hlocal t rest) some

/-- A `Construct` that is too deep is reported about the token that opens it. -/
theorem aims_nested {what : Construct} {inner : Option (Parser α)} {opening : Token}
    {body : Parser α → Parser β}
    (h : ∀ p, inner = some p → ∀ ts, Aims stop opening.pos.number (body p) ts) (ts : List Token) :
    Aims stop opening.pos.number (nested what inner opening body) ts := by
  cases inner with
  | none => exact aims_failAt _ opening ts
  | some p => exact h p rfl ts

/-! ### Loops -/

/-- A loop is `Aimed` if its steps aim. -/
theorem Runs.aimed {step : α → Reader ε (Option α)} (hlocal : ∀ a ts, Local (step a) ts)
    (hstep : ∀ a ts, Aims stop lo (step a) ts) {a : α} {ts : List Token}
    {r : Outcome (List Token) (Finding GrammarCause) ε α} (h : Runs step a ts r)
    (hrow : Row stop ts) (hlo : lo ≤ front ts) : Aimed lo r := by
  -- by induction on the run: a step that goes on has reported nothing, and leaves a row that begins
  -- later
  induction h with
  | @done a ts _ _ last =>
    have hlast := hstep a ts hrow hlo
    rw [last] at hlast
    obtain rfl := hlast.silent _ rfl
    exact aimed_ok a _
  | @failed a ts _ _ e last =>
    have hlast := hstep a ts hrow hlo
    rw [last] at hlast
    obtain ⟨f, rfl, hge, hle⟩ := hlast.reports e rfl
    exact aimed_error e hge hle
  | @further a a' ts rest log r first _ ih =>
    obtain ⟨hrest, hle⟩ := hrow.of_local (hlocal a ts)
    have hfirst := hstep a ts hrow hlo
    rw [first] at hrest hle hfirst
    obtain rfl := hfirst.silent _ rfl
    exact ih hrest (Nat.le_trans hlo hle)

theorem aims_loop {step : α → Reader ε (Option α)} (hprogresses : Progresses step)
    (hlocal : ∀ a ts, Local (step a) ts) (hstep : ∀ a ts, Aims stop lo (step a) ts) (a : α)
    (ts : List Token) : Aims stop lo (loop step a) ts :=
  fun hrow hlo => (runs_loop hprogresses a ts).aimed hlocal hstep hrow hlo

theorem aims_many {item : Reader ε (Option α)} (hpaced : Paced item) (hlocal : ∀ ts, Local item ts)
    (hitem : ∀ ts, Aims stop lo item ts) (ts : List Token) : Aims stop lo (many item) ts := by
  have hcollect : ∀ (found : List α) ts, Aims stop lo (collect item found) ts := by
    intro found ts
    refine (hitem ts).bind (hlocal ts) fun a? rest _ => ?_
    cases a? <;> exact aims_pure _ rest
  have hprogresses := progresses_collect hpaced
  exact (aims_loop hprogresses (local_collect hlocal) hcollect [] ts).bind
    (local_loop hprogresses (local_collect hlocal) [] ts) fun found rest _ =>
      aims_pure found.reverse rest

theorem aims_listed {item : Parser α} (hlocal : ∀ ts, Local item ts)
    (hitem : ∀ lo ts, Aims stop lo item ts) (ts : List Token) : Aims stop lo (listed item) ts := by
  refine (aims_check _ ts).bind (local_check _ ts) fun b rest _ => ?_
  have hlocal' : ∀ (t : Token) ts, Local item ts := fun _ => hlocal
  cases b with
  | true => exact aims_pure [] rest
  | false =>
    -- the items behind the first one follow a comma, which may be blamed
    have hothers : ∀ ts, Aims stop lo (many (behind [.comma] fun _ => item)) ts :=
      aims_many (paced_behind hlocal') (local_behind hlocal') (aims_behind hlocal' fun t => hitem _)
    refine (hitem lo rest).bind (hlocal rest) fun first rest _ => (hothers rest).bind
      (local_many (paced_behind hlocal') (local_behind hlocal') rest) fun others rest _ =>
        aims_pure _ rest

/-! ### Expressions -/

/-- `compound` reports an expression that is too deep about its operator. -/
theorem aims_compound (e : Expr) (below : Nat) (t : Token) (ts : List Token) :
    Aims stop t.pos.number (compound e below t) ts := by
  unfold compound
  split
  · exact aims_failAt _ t ts
  · exact aims_pure _ ts

/-- Prefix operators may be blamed after the operand has been read. -/
theorem aims_prefixes {ops : List Token} (operand : Measured) {ts : List Token}
    (hops : ∀ op ∈ ops, lo ≤ op.pos.number ∧ op.pos.number ≤ front ts) :
    Aims stop lo (ops.foldlM (fun operand op =>
      compound (.unary op.text operand.expr op.pos) operand.depth op) operand : Parser Measured)
        ts := by
  induction ops generalizing operand ts with
  | nil => exact aims_pure operand ts
  | cons op ops ih =>
    obtain ⟨⟨hge, hle⟩, hops⟩ := List.forall_mem_cons.1 hops
    have hlocal := local_compound (.unary op.text operand.expr op.pos) operand.depth op ts
    intro hrow hlo
    have hcompound :
        Aims stop lo (compound (.unary op.text operand.expr op.pos) operand.depth op) ts :=
      fun hrow _ => (aims_compound _ _ op ts hrow hle).mono hge
    refine hcompound.bind hlocal (fun operand' rest hyields => ih operand' fun op' hop' => ?_) hrow
      hlo
    -- making the operation does not go back
    have hforward := (hrow.of_local hlocal).2
    rw [hyields] at hforward
    exact ⟨(hops op' hop').1, Nat.le_trans (hops op' hop').2 hforward⟩

/-- An `operation` may blame its operator, which was taken before. -/
theorem aims_operation {operand : Parser Measured} (hlocal : ∀ ts, Local operand ts)
    (hoperand : ∀ lo ts, Aims stop lo operand ts) (left : Measured) (op : Token) (ts : List Token) :
    Aims stop op.pos.number (operation operand left op) ts :=
  (hoperand _ ts).bind (hlocal ts) fun _ rest _ => aims_compound _ _ op rest

section

variable {inner : Option (Parser Measured)} (hlocal : ∀ p, inner = some p → ∀ ts, Local p ts)
  (h : ∀ p, inner = some p → ∀ lo ts, Aims stop lo p ts)

include hlocal h

/-- A `primary` expression may blame its parenthesis, which was taken before. -/
theorem aims_primary (ts : List Token) : Aims stop lo (primary inner) ts := by
  refine (aims_peek ts).bind (local_peek ts) fun t rest hpeek => ?_
  obtain ⟨rfl, rfl⟩ := peek_yields_iff.1 hpeek
  cases rest with
  | nil => exact aims_failNext _ []
  | cons t ts =>
    have hskip : ∀ m : Measured, t.isEnd = false →
        Aims stop lo (do skip; pure m : Parser Measured) (t :: ts) :=
      fun m ht => aims_skip ht (aims_pure m ts)
    rw [next_cons]
    split
    -- a word for a truth value, a name or a number is skipped
    · next hword => exact hskip _ (isEnd_of_isKeyword hword)
    · split
      · next htag => exact hskip _ (isEnd_of_tag_eq htag (by decide))
      · next htag => exact hskip _ (isEnd_of_tag_eq htag (by decide))
      · next htag => exact hskip _ (isEnd_of_tag_eq htag (by decide))
      · next htag =>
        refine aims_skip (isEnd_of_tag_eq htag (by decide)) ?_
        exact (aims_nested (fun p hp => h p hp _) ts).bind (local_nested hlocal ts) fun e rest _ =>
          (aims_expect _ _ rest).bind (local_expect _ _ rest) fun _ rest _ => aims_pure e rest
      · exact aims_failNext _ (t :: ts)

theorem aims_arguments (callee : Measured) (paren : Token) (ts : List Token) :
    Aims stop paren.pos.number (arguments inner callee paren) ts :=
  (aims_nested (fun p hp => aims_listed (hlocal p hp) (h p hp)) ts).bind
    (local_nested (fun p hp => local_listed (hlocal p hp)) ts) fun _ rest _ =>
      (aims_expect _ _ rest).bind (local_expect _ _ rest) fun _ rest _ =>
        aims_compound _ _ paren rest

theorem aims_call (ts : List Token) : Aims stop lo (call inner) ts := by
  rw [call_eq]
  refine (aims_primary hlocal h ts).bind (eager_primary hlocal ts).toLocal fun callee rest _ => ?_
  exact aims_loop (progresses_arguments hlocal)
    (fun callee => local_behind (local_arguments hlocal callee))
    (fun callee => aims_behind (local_arguments hlocal callee) (aims_arguments hlocal h callee))
      callee rest

/-- In `unary`, prefix operators were taken before the operand is read, and may be blamed behind
it. -/
theorem aims_unary (ts : List Token) : Aims stop lo (unary inner) ts := by
  have hsigns :=
    local_many (paced_accept (ε := GrammarCause) [.logicalNot, .minus]) (local_accept _) ts
  intro hrow hlo
  refine (aims_many (paced_accept _) (local_accept _) (picks_accept _).aims ts).bind hsigns
    (fun ops rest hops => ?_) hrow hlo
  obtain ⟨last, hitems, hend⟩ := (many_yields_iff (consumes_accept _)).1 hops
  obtain ⟨-, rfl⟩ := accept_yields_none_iff.1 hend
  obtain ⟨rfl, htags⟩ := (items_accept_iff (by decide)).1 hitems
  have hends : ∀ op ∈ ops, op.isEnd = false := by
    intro op hop
    have htag : op.tag ≠ .eof := fun htag => absurd (htags op hop) (by rw [htag]; decide)
    simpa [Token.isEnd] using htag
  refine (aims_call hlocal h rest).bind (eager_call hlocal rest).toLocal
    fun operand rest' hcall => ?_
  have hforward := ((hrow.of_append hends).of_local (eager_call hlocal rest).toLocal).2
  rw [hcall] at hforward
  -- the operators lie between the first token and the one behind the operand
  refine aims_prefixes operand fun op hop => ?_
  have hmem : op ∈ ops := List.mem_reverse.1 hop
  exact ⟨Nat.le_trans hlo (hrow.front_le (List.mem_append_left _ hmem)),
    Nat.le_trans (Nat.le_of_lt (hrow.lt_front_of_append hends hmem)) hforward⟩

theorem aims_binary (tighter : List (List Tag)) (lo : Nat) (ts : List Token) :
    Aims stop lo (binary inner tighter) ts := by
  induction tighter generalizing lo ts with
  | nil => exact aims_unary hlocal h ts
  | cons ops tighter ih =>
    have hoperand : ∀ ts, Local (binary inner tighter) ts :=
      fun ts => (eager_binary hlocal tighter ts).toLocal
    rw [binary, chain_eq]
    exact (ih lo ts).bind (hoperand ts) fun first rest _ =>
      aims_loop (progresses_operation hoperand ops)
      (fun left => local_behind (local_operation hoperand left))
      (fun left => aims_behind (local_operation hoperand left) (aims_operation hoperand ih left))
        first rest

/-- An `assignment` may blame its sign, which was taken before. -/
theorem aims_assignment (ts : List Token) : Aims stop lo (assignment inner) ts := by
  refine (aims_binary hlocal h levels lo ts).bind (eager_binary hlocal levels ts).toLocal
    fun target rest _ => (picks_accept _).aims_bind (aims_pure target rest) fun sign rest => ?_
  refine (aims_nested (fun p hp => h p hp _) rest).bind (local_nested hlocal rest)
    fun value rest _ => ?_
  split
  · exact aims_compound _ _ sign rest
  · exact aims_failAt _ sign rest

end

theorem aims_expression (room lo : Nat) (ts : List Token) : Aims stop lo (expression room) ts := by
  induction room generalizing lo ts with
  | zero => exact aims_assignment (fun _ hp => by cases hp) (fun _ hp => by cases hp) ts
  | succ room ih =>
    exact aims_assignment (fun p hp => Option.some.inj hp ▸ local_expression room)
      (fun p hp => Option.some.inj hp ▸ ih) ts

/-! ### Parameters -/

theorem aims_parameter (lo : Nat) (ts : List Token) : Aims stop lo parameter ts :=
  (aims_expectKeyword _ _ ts).bind (local_expectKeyword _ _ ts) fun _ rest _ =>
    (aims_expect _ _ rest).bind (local_expect _ _ rest) fun _ rest _ => aims_pure _ rest

end

end Parser

end Tricode
