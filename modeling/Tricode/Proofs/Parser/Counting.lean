import Tricode.Parser.Cursor
import Tricode.Program.Parser
import Tricode.Proofs.Parser.Local

/-!
# The counter of levels

A parser that counts does what the parser on the bare tokens does that has as much room as the
counter leaves below the limit (`roomBelow`), and behind it the counter is what it was before. The
one exception is a stack that ends before the limit is reached: then the parser stops on its way,
again with the counter that it began with. `Counts` says all this about a run.

The counter goes up and down in `Cursor.counted` only, and each time around the parser for a whole
construct. So `Counts` is carried through sequences and loops by lemmas that do not touch the
counter (`Counts.bind`, `counts_loop`), and `counts_nested` is the one place where two counters
meet.
-/

namespace Tricode

namespace Parser

open Pass

variable {α β ε : Type}

/-! ### Going forward -/

/-- From `ts` tokens in front of the end have been taken, and `rest` is left. -/
def Forward (ts rest : List Token) : Prop :=
  ∃ w, ts = w ++ rest ∧ ∀ t ∈ w, t.isEnd = false

theorem Forward.refl (ts : List Token) : Forward ts ts :=
  ⟨[], rfl, List.forall_mem_nil _⟩

theorem Forward.trans {ts mid rest : List Token} (h : Forward ts mid) (h' : Forward mid rest) :
    Forward ts rest := by
  obtain ⟨w, rfl, hw⟩ := h
  obtain ⟨w', rfl, hw'⟩ := h'
  exact ⟨w ++ w', (List.append_assoc w w' rest).symm, List.forall_mem_append.2 ⟨hw, hw'⟩⟩

/-- Skipping a token that does not end the text goes `Forward`. -/
theorem forward_tail {ts : List Token} (h : (next ts).isEnd = false) : Forward ts ts.tail := by
  cases ts with
  | nil => cases h
  | cons t ts => exact ⟨[t], rfl, List.forall_mem_singleton.2 h⟩

/-- Recovery goes `Forward`. -/
theorem forward_recovered (ts : List Token) : Forward ts (recovered ts) :=
  (local_synchronize (ε := Empty) ts).reads

/-! ### Runs that count -/

/-- What a run from `ts` with the counter at `k` comes to, beside the run on the bare tokens. If the
stack `fits`, the two runs come to the same. -/
inductive Counted (fits : Prop) (k : Int) (ts : List Token) :
    Outcome Cursor (Finding GrammarCause) (Failure ε) α →
      Outcome (List Token) (Finding GrammarCause) ε α → Prop where
  | ok {a : α} {log : List (Finding GrammarCause)} {rest : List Token} (forward : Forward ts rest) :
    Counted fits k ts ⟨.ok a, log, ⟨rest, k⟩⟩ ⟨.ok a, log, rest⟩
  | error {e : ε} {log : List (Finding GrammarCause)} {rest : List Token}
    (forward : Forward ts rest) :
    Counted fits k ts ⟨.error (.cause e), log, ⟨rest, k⟩⟩ ⟨.error e, log, rest⟩
  | overflow {log : List (Finding GrammarCause)} {rest : List Token}
    {r : Outcome (List Token) (Finding GrammarCause) ε α} (forward : Forward ts rest)
    (short : ¬ fits) : Counted fits k ts ⟨.error .overflow, log, ⟨rest, k⟩⟩ r

/-- From `ts` and with the counter at `k`, the parser `p` does what `q` does on the bare tokens. -/
def Counts (fits : Prop) (k : Int) (p : Reading Cursor (Failure ε) α) (q : Reader ε α)
    (ts : List Token) : Prop :=
  Counted fits k ts (p ⟨ts, k⟩) (q ts)

section

variable {fits : Prop} {k : Int} {ts : List Token}

/-- A run behind another one that went `Forward`. -/
theorem Counted.trans {mid : List Token} {r : Outcome Cursor (Finding GrammarCause) (Failure ε) α}
    {r' : Outcome (List Token) (Finding GrammarCause) ε α} (h : Forward ts mid)
    (h' : Counted fits k mid r r') (log : List (Finding GrammarCause)) :
    Counted fits k ts ⟨r.value, log ++ r.log, r.state⟩ ⟨r'.value, log ++ r'.log, r'.state⟩ := by
  cases h' with
  | ok forward => exact .ok (h.trans forward)
  | error forward => exact .error (h.trans forward)
  | overflow forward short => exact .overflow (h.trans forward) short

/-- Where fewer stacks fit, less has to be shown for `Counted`. -/
theorem Counted.mono {fits' : Prop} {r : Outcome Cursor (Finding GrammarCause) (Failure ε) α}
    {r' : Outcome (List Token) (Finding GrammarCause) ε α} (h : Counted fits k ts r r')
    (hfits : fits' → fits) : Counted fits' k ts r r' := by
  cases h with
  | ok forward => exact .ok forward
  | error forward => exact .error forward
  | overflow forward short => exact .overflow forward fun hfits' => short (hfits hfits')

/-- However the run ends, it has gone `Forward`, and the counter is what it was. -/
theorem Counted.state {r : Outcome Cursor (Finding GrammarCause) (Failure ε) α}
    {r' : Outcome (List Token) (Finding GrammarCause) ε α} (h : Counted fits k ts r r') :
    Forward ts r.state.rest ∧ r.state.nesting = k := by
  cases h with
  | ok forward => exact ⟨forward, rfl⟩
  | error forward => exact ⟨forward, rfl⟩
  | overflow forward short => exact ⟨forward, rfl⟩

/-- On a stack that fits, a `Counted` run whose pair cannot fail does not fail either. -/
theorem Counted.eq_of_fits {r : Outcome Cursor (Finding GrammarCause) (Failure Empty) α}
    {r' : Outcome (List Token) (Finding GrammarCause) Empty α} (h : Counted fits k ts r r')
    (hfits : fits) : r = ⟨.ok r'.get, r'.log, ⟨r'.state, k⟩⟩ := by
  cases h with
  | ok forward => rfl
  | @error e => cases e
  | overflow forward short => exact absurd hfits short

/-- One parser that `Counts` behind the other, from where the first one ends on the bare tokens. -/
theorem Counts.bind {p : Reading Cursor (Failure ε) α} {q : Reader ε α}
    {f : α → Reading Cursor (Failure ε) β} {g : α → Reader ε β} (hp : Counts fits k p q ts)
    (hf : ∀ a log rest, q ts = ⟨.ok a, log, rest⟩ → Counts fits k (f a) (g a) rest) :
    Counts fits k (p >>= f) (q >>= g) ts := by
  unfold Counts at hp ⊢
  generalize hr : p ⟨ts, k⟩ = r at hp
  generalize hr' : q ts = r' at hp
  -- an overflow of the first parser is one of both together, whatever the pair goes on with
  cases hp with
  | ok forward =>
    rw [bind_of_ok hr, bind_of_ok hr']
    exact (hf _ _ _ hr').trans forward _
  | error forward =>
    rw [bind_of_error hr, bind_of_error hr']
    exact .error forward
  | overflow forward short =>
    rw [bind_of_error hr]
    exact .overflow forward short

theorem counts_pure (a : α) :
    Counts fits k (pure a : Reading Cursor (Failure ε) α) (pure a) ts :=
  .ok (.refl ts)

theorem Counts.map {p : Reading Cursor (Failure ε) α} {q : Reader ε α} (hp : Counts fits k p q ts)
    (f : α → β) : Counts fits k (f <$> p) (f <$> q) ts := by
  rw [← bind_pure_comp, ← bind_pure_comp]
  exact hp.bind fun a _ _ _ => counts_pure (f a)

/-! ### Tokens -/

theorem counts_peek : Counts fits k (peek : Reading Cursor (Failure ε) Token) peek ts :=
  .ok (.refl ts)

theorem counts_atEnd : Counts fits k (atEnd : Reading Cursor (Failure ε) Bool) atEnd ts :=
  .ok (.refl ts)

theorem counts_check (tag : Tag) :
    Counts fits k (check tag : Reading Cursor (Failure ε) Bool) (check tag) ts :=
  .ok (.refl ts)

theorem counts_checkKeyword (words : List String) :
    Counts fits k (checkKeyword words : Reading Cursor (Failure ε) Bool) (checkKeyword words) ts :=
  .ok (.refl ts)

/-- `skip` counts unless the token ends the text. -/
theorem counts_skip (h : (next ts).isEnd = false) :
    Counts fits k (skip : Reading Cursor (Failure ε) Unit) skip ts :=
  .ok (forward_tail h)

theorem counts_write (found : Finding GrammarCause) :
    Counts fits k (write found : Reading Cursor (Failure ε) Unit) (write found) ts :=
  .ok (.refl ts)

/-- `accept` does not look at the counter. -/
theorem counts_accept (tags : List Tag) :
    Counts fits k (accept tags : Reading Cursor (Failure ε) (Option Token)) (accept tags) ts := by
  show Counted fits k ts
    (if sees tags ts then ⟨.ok (some (next ts)), [], ⟨ts.tail, k⟩⟩ else ⟨.ok none, [], ⟨ts, k⟩⟩)
    (if sees tags ts then ⟨.ok (some (next ts)), [], ts.tail⟩ else ⟨.ok none, [], ts⟩)
  split
  · next h =>
    rw [sees, Bool.and_eq_true, Bool.not_eq_true'] at h
    exact .ok (forward_tail h.1)
  · exact .ok (.refl ts)

theorem counts_acceptKeyword (words : List String) :
    Counts fits k (acceptKeyword words : Reading Cursor (Failure ε) (Option Token))
      (acceptKeyword words) ts := by
  show Counted fits k ts
    (if (next ts).isKeyword words then ⟨.ok (some (next ts)), [], ⟨ts.tail, k⟩⟩
      else ⟨.ok none, [], ⟨ts, k⟩⟩)
    (if (next ts).isKeyword words then ⟨.ok (some (next ts)), [], ts.tail⟩ else ⟨.ok none, [], ts⟩)
  split
  · next h => exact .ok (forward_tail (isEnd_of_isKeyword h))
  · exact .ok (.refl ts)

theorem counts_failAt (cause : GrammarCause) (t : Token) :
    Counts fits k (failAt cause t : Reading Cursor (Failure GrammarCause) α) (failAt cause t) ts :=
  .error (.refl ts)

theorem counts_expect (tag : Tag) (cause : GrammarCause) :
    Counts fits k (expect tag cause) (expect tag cause) ts := by
  refine (counts_accept [tag]).bind fun t? _ _ _ => ?_
  cases t? with
  | none => exact counts_peek.bind fun t _ _ _ => counts_failAt cause t
  | some t => exact counts_pure t

theorem counts_expectKeyword (words : List String) (cause : GrammarCause) :
    Counts fits k (expectKeyword words cause) (expectKeyword words cause) ts := by
  refine (counts_acceptKeyword words).bind fun t? _ _ _ => ?_
  cases t? with
  | none => exact counts_peek.bind fun t _ _ _ => counts_failAt cause t
  | some t => exact counts_pure t

/-- `expect` a token that ends a construct, whose value is known by then. -/
theorem counts_expect_pure (tag : Tag) (cause : GrammarCause) (a : α) (ts : List Token) :
    Counts fits k (do let _ ← expect tag cause; pure a)
      (do let _ ← expect tag cause; pure a : Parser α) ts :=
  (counts_expect tag cause).bind fun _ _ _ _ => counts_pure a

/-- `synchronize` leaves the counter as it is. -/
theorem counts_synchronize :
    Counts fits k (synchronize : Reading Cursor (Failure ε) Unit) synchronize ts :=
  .ok (forward_recovered ts)

end

/-! ### Repetition -/

section

variable {fits : Prop} {k : Int}

/-- The steps of the two loops are made with the same measure, that of `loopFrom`. -/
theorem counted_loopFrom {step : α → Reading Cursor (Failure ε) (Option α)}
    {step' : α → Reader ε (Option α)} (hstep : ∀ a ts, Counts fits k (step a) (step' a) ts)
    (room : List Token) (a : α) (ts : List Token) (log : List (Finding GrammarCause)) :
    Counted fits k ts (loopFrom step room a ⟨ts, k⟩ log) (loopFrom step' room a ts log) := by
  induction room generalizing a ts log with
  | nil => exact .ok (.refl ts)
  | cons t room ih =>
    have hcounts := hstep a ts
    unfold Counts at hcounts
    simp only [loopFrom]
    generalize step a ⟨ts, k⟩ = r at hcounts ⊢
    generalize step' a ts = r' at hcounts ⊢
    cases hcounts with
    -- both loops make the step, or both are told to end
    | @ok a? new rest forward =>
      cases a? with
      | none => exact .ok forward
      | some a' => exact (ih a' rest (new.reverse ++ log)).trans forward []
    | error forward => exact .error forward
    | overflow forward short => exact .overflow forward short

theorem counts_loop {step : α → Reading Cursor (Failure ε) (Option α)}
    {step' : α → Reader ε (Option α)} (hstep : ∀ a ts, Counts fits k (step a) (step' a) ts) (a : α)
    (ts : List Token) : Counts fits k (loop step a) (loop step' a) ts :=
  counted_loopFrom hstep ts a ts []

theorem counts_many {item : Reading Cursor (Failure ε) (Option α)} {item' : Reader ε (Option α)}
    (hitem : ∀ ts, Counts fits k item item' ts) (ts : List Token) :
    Counts fits k (many item) (many item') ts := by
  refine (counts_loop (fun found ts => (hitem ts).bind fun a? _ _ _ => ?_) [] ts).bind
    fun found _ _ _ => counts_pure found.reverse
  cases a? with
  | none => exact counts_pure none
  | some a => exact counts_pure (some (a :: found))

/-- What follows an accepted token. -/
theorem counts_behind {tags : List Tag} {further : Token → Reading Cursor (Failure ε) α}
    {further' : Token → Reader ε α} (h : ∀ t ts, Counts fits k (further t) (further' t) ts)
    (ts : List Token) :
    Counts fits k
      (do match ← accept tags with
        | some t => some <$> further t
        | none => pure none)
      (do match ← accept tags with
        | some t => some <$> further' t
        | none => pure none) ts := by
  refine (counts_accept tags).bind fun t? _ rest _ => ?_
  cases t? with
  | none => exact counts_pure none
  | some t => exact (h t rest).map some

theorem counts_commaSeparated {item : Reading Cursor (Failure ε) α} {item' : Reader ε α}
    (hitem : ∀ ts, Counts fits k item item' ts) (ts : List Token) :
    Counts fits k (commaSeparated item) (commaSeparated item') ts :=
  (hitem ts).bind fun first _ rest _ =>
    (counts_many (counts_behind fun _ => hitem) rest).bind fun others _ _ _ =>
      counts_pure (first :: others)

/-- A list in parentheses may be empty. -/
theorem counts_listed {item : Reading Cursor (Failure GrammarCause) α} {item' : Parser α}
    (hitem : ∀ ts, Counts fits k item item' ts) (ts : List Token) :
    Counts fits k (do if ← check .rightParen then pure [] else commaSeparated item)
      (listed item') ts := by
  refine (counts_check _).bind fun b _ rest _ => ?_
  cases b with
  | true => exact counts_pure []
  | false => exact counts_commaSeparated hitem rest

/-- `recovering` deals with the causes, and lets an overflow through. -/
theorem counts_recovering {raise : Failure Empty → Failure ε} {raise' : Empty → ε}
    (hraise : raise .overflow = .overflow) {p : Reading Cursor (Failure GrammarCause) (Option α)}
    {q : Parser (Option α)} {ts : List Token} (hp : Counts fits k p q ts) :
    Counts fits k (recovering raise p) (recovering raise' q) ts := by
  have hattempt : ∀ {value log state}, p ⟨ts, k⟩ = ⟨value, log, state⟩ →
      (attempt p : Reading Cursor (Failure ε) _) ⟨ts, k⟩ = ⟨.ok value, log, state⟩ := by
    intro value log state h
    rw [attempt, h]
  unfold Counts at hp ⊢
  generalize hr : p ⟨ts, k⟩ = r at hp
  generalize hr' : q ts = r' at hp
  cases hp with
  | @ok a? log rest forward =>
    have hrun : recovering raise p ⟨ts, k⟩ = ⟨.ok a?, log, ⟨rest, k⟩⟩ :=
      bind_eq_of_silent (hattempt hr) rfl
    rw [hrun, recovering_of_ok hr']
    exact .ok forward
  | @error e log rest forward =>
    have hrun : recovering raise p ⟨ts, k⟩ = ⟨.ok none, log, ⟨recovered rest, k⟩⟩ :=
      bind_eq_of_silent (hattempt hr) rfl
    rw [hrun, recovering_of_error hr']
    exact .ok (forward.trans (forward_recovered rest))
  -- only an overflow is not dealt with, and it is raised again
  | @overflow log rest _ forward short =>
    have hrun : recovering raise p ⟨ts, k⟩ = ⟨.error .overflow, log ++ [], ⟨rest, k⟩⟩ := by
      rw [recovering, bind_of_ok (hattempt hr), ← hraise]
      rfl
    rw [hrun]
    exact .overflow forward short

end

/-! ### Constructs -/

/-- How the parsers for what stands inside a construct go together if the counter is at `k` in front
of it: there is none where the limit is reached, and a stack that does not fit may have none
before. -/
inductive Nests (fits : Prop) (k : Int) :
    Option (Reading Cursor (Failure GrammarCause) α) → Option (Parser α) → Prop where
  | full {inner : Option (Reading Cursor (Failure GrammarCause) α)}
    (limit : (maxNesting : Int) < k + 1) : Nests fits k inner none
  | short {q : Parser α} (limit : k + 1 ≤ maxNesting) (short : ¬ fits) : Nests fits k none (some q)
  | inner {p : Reading Cursor (Failure GrammarCause) α} {q : Parser α} (limit : k + 1 ≤ maxNesting)
    (counts : ∀ ts, Counts fits (k + 1) p q ts) : Nests fits k (some p) (some q)

section

variable {fits : Prop} {k : Int}

/-- The way out of `Cursor.counted` takes back what the way in has added, on every exit. -/
theorem counts_counted {p : Reading Cursor (Failure ε) α} {q : Reader ε α} {ts : List Token}
    (h : Counts fits (k + 1) p q ts) : Counts fits k (Cursor.counted p) q ts := by
  have hback : k + 1 - 1 = k := Int.add_sub_cancel k 1
  show Counted fits k ts
    ⟨(p ⟨ts, k + 1⟩).value, (p ⟨ts, k + 1⟩).log,
      ⟨(p ⟨ts, k + 1⟩).state.rest, (p ⟨ts, k + 1⟩).state.nesting - 1⟩⟩ (q ts)
  unfold Counts at h
  generalize p ⟨ts, k + 1⟩ = r at h ⊢
  generalize q ts = r' at h ⊢
  -- the inside has left the counter one higher, however it ended
  cases h with
  | ok forward =>
    rw [hback]
    exact .ok forward
  | error forward =>
    rw [hback]
    exact .error forward
  | overflow forward short =>
    rw [hback]
    exact .overflow forward short

/-- Inside a `Construct` the counter is one higher than around it. -/
theorem counts_nested {what : Construct} {opening : Token}
    {inner : Option (Reading Cursor (Failure GrammarCause) α)} {inner' : Option (Parser α)}
    (hinner : Nests fits k inner inner')
    {body : Reading Cursor (Failure GrammarCause) α → Reading Cursor (Failure GrammarCause) β}
    {body' : Parser α → Parser β}
    (hbody : ∀ p q, (∀ ts, Counts fits (k + 1) p q ts) →
      ∀ ts, Counts fits (k + 1) (body p) (body' q) ts) (ts : List Token) :
    Counts fits k (nested what inner opening body) (nested what inner' opening body') ts := by
  refine counts_counted (k := k) ?_
  -- the test of the limit and the room on the bare tokens say the same
  show Counted fits (k + 1) ts (if (maxNesting : Int) < k + 1 then _ else _) _
  cases hinner with
  | full limit =>
    rw [if_pos limit]
    exact .error (.refl ts)
  | short limit short =>
    rw [if_neg (Int.not_lt.2 limit)]
    exact .overflow (.refl ts) short
  | inner limit counts =>
    rw [if_neg (Int.not_lt.2 limit)]
    exact hbody _ _ counts ts

end

/-! ### Expressions -/

section

variable {fits : Prop} {k : Int} {inner : Option (Reading Cursor (Failure GrammarCause) Measured)}
  {inner' : Option (Parser Measured)}

/-- The depth that `compound` checks is not the nesting, and is checked alike. -/
theorem counts_compound (e : Expr) (below : Nat) (t : Token) (ts : List Token) :
    Counts fits k (compound e below t) (compound e below t) ts := by
  unfold compound
  split
  · exact counts_failAt _ t
  · exact counts_pure _

variable (hinner : Nests fits k inner inner')

include hinner

/-- A `primary` expression goes one level down inside its parentheses. -/
theorem counts_primary (ts : List Token) :
    Counts fits k (primary inner) (primary inner') ts := by
  refine counts_peek.bind fun t _ rest hpeek => ?_
  obtain ⟨rfl, -, rfl⟩ : next ts = t ∧ _ ∧ ts = rest := by simpa [peek] using hpeek
  -- a token that is skipped is not the end token
  have hskip : ∀ m : Measured, (next ts).isEnd = false →
      Counts fits k (do skip; pure m) (do skip; pure m : Parser Measured) ts :=
    fun m hend => (counts_skip hend).bind fun _ _ _ _ => counts_pure m
  split
  · next hword => exact hskip _ (isEnd_of_isKeyword hword)
  · split
    · next htag => exact hskip _ (isEnd_of_tag_eq htag (by decide))
    · next htag => exact hskip _ (isEnd_of_tag_eq htag (by decide))
    · next htag => exact hskip _ (isEnd_of_tag_eq htag (by decide))
    · next htag =>
      refine (counts_skip (isEnd_of_tag_eq htag (by decide))).bind fun _ _ rest _ => ?_
      exact (counts_nested hinner (fun _ _ h => h) rest).bind fun e _ rest _ =>
        counts_expect_pure _ _ e rest
    · exact counts_failAt _ _

/-- The `arguments` of a call are one level down. -/
theorem counts_arguments (callee : Measured) (paren : Token) (ts : List Token) :
    Counts fits k (arguments inner callee paren) (arguments inner' callee paren) ts :=
  (counts_nested hinner (fun _ _ h => counts_listed h) ts).bind fun _ _ _ _ =>
    (counts_expect _ _).bind fun _ _ rest _ => counts_compound _ _ paren rest

theorem counts_call (ts : List Token) : Counts fits k (call inner) (call inner') ts :=
  (counts_primary hinner ts).bind fun callee _ rest _ =>
    counts_loop (fun callee => counts_behind (counts_arguments hinner callee)) callee rest

omit hinner in
theorem counts_prefixes (ops : List Token) (operand : Measured) (ts : List Token) :
    Counts fits k
      (ops.foldlM (fun operand op =>
        compound (.unary op.text operand.expr op.pos) operand.depth op) operand)
      (ops.foldlM (fun operand op =>
        compound (.unary op.text operand.expr op.pos) operand.depth op) operand) ts := by
  induction ops generalizing operand ts with
  | nil => exact counts_pure operand
  | cons op ops ih =>
    exact (counts_compound _ _ op ts).bind fun operand' _ rest _ => ih operand' rest

theorem counts_unary (ts : List Token) : Counts fits k (unary inner) (unary inner') ts :=
  (counts_many (fun _ => counts_accept _) ts).bind fun _ _ rest _ =>
    (counts_call hinner rest).bind fun operand _ rest _ => counts_prefixes _ operand rest

/-- The operations of `binary`, of any level, stay on the level of their operands. -/
theorem counts_binary (tighter : List (List Tag)) (ts : List Token) :
    Counts fits k (binary inner tighter) (binary inner' tighter) ts := by
  induction tighter generalizing ts with
  | nil => exact counts_unary hinner ts
  | cons ops tighter ih =>
    refine (ih ts).bind fun first _ rest _ => counts_loop (fun left ts => ?_) first rest
    refine (counts_accept ops).bind fun op? _ rest _ => ?_
    cases op? with
    | none => exact counts_pure none
    | some op =>
      exact (ih rest).bind fun right _ rest _ => (counts_compound _ _ op rest).map some

/-- The value of an `assignment` is one level down. -/
theorem counts_assignment (ts : List Token) :
    Counts fits k (assignment inner) (assignment inner') ts := by
  refine (counts_binary hinner levels ts).bind fun target _ rest _ =>
    (counts_accept _).bind fun sign? _ rest _ => ?_
  cases sign? with
  | none => exact counts_pure target
  | some sign =>
    refine (counts_nested hinner (fun _ _ h => h) rest).bind fun value _ rest _ => ?_
    split
    · exact counts_compound _ _ sign rest
    · exact counts_failAt _ sign

end

/-- How many levels there are below the limit if the counter is at `k`. -/
def roomBelow (k : Int) : Nat :=
  (maxNesting - k).toNat

/-- One more level is below the limit exactly if `roomBelow` is not used up. -/
theorem roomBelow_cases (k : Int) :
    (maxNesting : Int) < k + 1 ∧ roomBelow k = 0 ∨
      k + 1 ≤ maxNesting ∧ roomBelow k = roomBelow (k + 1) + 1 := by
  unfold roomBelow
  omega

/-- The levels that a stack holds are used up together with the room below the limit, or before. -/
theorem nests_of_succ {outer : Nat → Option (Reading Cursor (Failure GrammarCause) α)}
    {outer' : Nat → Option (Parser α)} {p : Nat → Reading Cursor (Failure GrammarCause) α}
    {q : Nat → Parser α} (hzero : outer 0 = none) (hzero' : outer' 0 = none)
    (hsucc : ∀ n, outer (n + 1) = some (p n)) (hsucc' : ∀ n, outer' (n + 1) = some (q n))
    {stack : Nat} {k : Int}
    (h : ∀ n, stack = n + 1 → ∀ ts,
      Counts (roomBelow (k + 1) ≤ n) (k + 1) (p n) (q (roomBelow (k + 1))) ts) :
    Nests (roomBelow k ≤ stack) k (outer stack) (outer' (roomBelow k)) := by
  obtain ⟨hlimit, hroom⟩ | ⟨hlimit, hroom⟩ := roomBelow_cases k
  · rw [hroom, hzero']
    exact .full hlimit
  · rw [hroom, hsucc']
    -- below the limit, a stack without a level left overflows
    cases stack with
    | zero =>
      rw [hzero]
      exact .short hlimit (Nat.not_succ_le_zero _)
    | succ n =>
      rw [hsucc]
      exact .inner hlimit fun ts => (h n rfl ts).mono Nat.le_of_succ_le_succ

/-- What is `inside` an expression `Nests` if expressions one level down count. -/
theorem nests_inside (stack : Nat) (k : Int)
    (h : ∀ n, stack = n + 1 → ∀ ts, Counts (roomBelow (k + 1) ≤ n) (k + 1) (expression n)
      (expression (roomBelow (k + 1))) ts) :
    Nests (roomBelow k ≤ stack) k (inside stack) (inside (roomBelow k)) :=
  nests_of_succ rfl rfl (fun _ => rfl) (fun _ => rfl) h

/-- An expression with the counter at `k` is one with the room that is left below the limit. -/
theorem counts_expression (stack : Nat) (k : Int) (ts : List Token) :
    Counts (roomBelow k ≤ stack) k (expression stack) (expression (roomBelow k)) ts := by
  -- what stands further in has one level of the stack less, and a counter one higher
  induction stack using Nat.strongRecOn generalizing k ts with
  | ind stack ih =>
    have hinside := nests_inside stack k fun n h => ih n (h ▸ Nat.lt_succ_self n) (k + 1)
    rw [expression_eq, expression_eq]
    exact counts_assignment hinside ts

/-! ### Statements -/

section

variable (stack : Nat) (k : Int)

theorem counts_declaration (type : Token) (ts : List Token) :
    Counts (roomBelow k ≤ stack) k (declaration stack type)
      (declaration (roomBelow k) type) ts := by
  refine (counts_expect _ _).bind fun name _ _ _ => (counts_accept _).bind fun sign? _ rest _ => ?_
  cases sign? with
  | none => exact (counts_pure none).bind fun _ _ rest _ => counts_expect_pure _ _ _ rest
  | some sign =>
    exact (counts_expression stack k rest).bind fun e _ _ _ => (counts_pure (some e.expr)).bind
      fun _ _ rest _ => counts_expect_pure _ _ _ rest

theorem counts_returnStatement (word : Token) (ts : List Token) :
    Counts (roomBelow k ≤ stack) k (returnStatement stack word)
      (returnStatement (roomBelow k) word) ts := by
  refine (counts_check _).bind fun b _ rest _ => ?_
  cases b with
  | true => exact (counts_pure none).bind fun _ _ rest _ => counts_expect_pure _ _ _ rest
  | false =>
    exact (counts_expression stack k rest).bind fun e _ _ _ => (counts_pure (some e.expr)).bind
      fun _ _ rest _ => counts_expect_pure _ _ _ rest

variable {block : Reading Cursor (Failure GrammarCause) Block} {block' : Parser Block}
  (hblock : ∀ ts, Counts (roomBelow k ≤ stack) k block block' ts)

include hblock

theorem counts_conditional (word : Token) (ts : List Token) :
    Counts (roomBelow k ≤ stack) k (conditional stack block word)
      (conditional (roomBelow k) block' word) ts := by
  refine (counts_expect _ _).bind fun _ _ rest _ =>
    (counts_expression stack k rest).bind fun cond _ _ _ =>
    (counts_expect _ _).bind fun _ _ rest _ =>
      (hblock rest).bind fun body _ _ _ => (counts_acceptKeyword _).bind fun word? _ rest _ => ?_
  cases word? with
  | none => exact counts_pure _
  | some _ => exact (hblock rest).bind fun alternative _ _ _ => counts_pure _

theorem counts_whileLoop (word : Token) (ts : List Token) :
    Counts (roomBelow k ≤ stack) k (whileLoop stack block word)
      (whileLoop (roomBelow k) block' word) ts :=
  (counts_expect _ _).bind fun _ _ rest _ => (counts_expression stack k rest).bind fun _ _ _ _ =>
    (counts_expect _ _).bind fun _ _ rest _ => (hblock rest).bind fun _ _ _ _ => counts_pure _

theorem counts_statementWith (ts : List Token) :
    Counts (roomBelow k ≤ stack) k (statementWith stack block)
      (statementWith (roomBelow k) block') ts := by
  refine counts_peek.bind fun t _ rest hpeek => ?_
  obtain ⟨rfl, -, rfl⟩ : next ts = t ∧ _ ∧ ts = rest := by simpa [peek] using hpeek
  split
  · next hkeyword =>
    rw [Bool.and_eq_true, beq_iff_eq] at hkeyword
    have hend : (next ts).isEnd = false := isEnd_of_tag_eq hkeyword.1 (by decide)
    refine (counts_skip hend).bind fun _ _ rest _ => ?_
    split
    · exact (counts_declaration stack k _ rest).map some
    split
    · exact (counts_conditional stack k hblock _ rest).map some
    split
    · exact (counts_whileLoop stack k hblock _ rest).map some
    split
    · exact (counts_returnStatement stack k _ rest).map some
    · exact (counts_write _).bind fun _ _ _ _ => counts_pure none
  · exact (counts_expression stack k ts).bind fun e _ rest _ => counts_expect_pure _ _ _ rest

end

/-! ### Blocks -/

theorem counts_blockItem {fits : Prop} {k : Int}
    {p : Reading Cursor (Failure GrammarCause) (Option Stmt)} {q : Parser (Option Stmt)}
    (hp : ∀ ts, Counts fits k p q ts) (ts : List Token) :
    Counts fits k (blockItem p) (blockItem q) ts := by
  refine (counts_check _).bind fun b _ _ _ => counts_atEnd.bind fun b' _ rest _ => ?_
  split
  · exact counts_pure none
  · exact (counts_recovering rfl (hp rest)).map some

theorem counts_blockWith {fits : Prop} {k : Int}
    {p : Option (Reading Cursor (Failure GrammarCause) (Option Stmt))}
    {q : Option (Parser (Option Stmt))} (hinner : Nests fits k p q) (ts : List Token) :
    Counts fits k (blockWith p) (blockWith q) ts :=
  (counts_expect _ _).bind fun _ _ rest _ =>
    (counts_nested hinner (fun _ _ h => counts_many (counts_blockItem h)) rest).bind
      fun _ _ rest _ => counts_expect_pure _ _ _ rest

/-- What is inside a block `Nests` if statements one level down count. -/
theorem nests_within (stack : Nat) (k : Int)
    (h : ∀ n, stack = n + 1 → ∀ ts, Counts (roomBelow (k + 1) ≤ n) (k + 1) (statement n)
      (statement (roomBelow (k + 1))) ts) :
    Nests (roomBelow k ≤ stack) k (within stack) (within (roomBelow k)) :=
  nests_of_succ rfl rfl (fun _ => rfl) (fun _ => rfl) h

/-- A statement with the counter at `k` is one with the room that is left below the limit. -/
theorem counts_statement (stack : Nat) (k : Int) (ts : List Token) :
    Counts (roomBelow k ≤ stack) k (statement stack) (statement (roomBelow k)) ts := by
  -- by induction on the stack, which bounds how deep the nesting goes in any case
  induction stack using Nat.strongRecOn generalizing k ts with
  | ind stack ih =>
    have hwithin := nests_within stack k fun n h => ih n (h ▸ Nat.lt_succ_self n) (k + 1)
    rw [statement_eq, statement_eq]
    exact counts_statementWith stack k (counts_blockWith hwithin) ts

theorem counts_block (stack : Nat) (k : Int) (ts : List Token) :
    Counts (roomBelow k ≤ stack) k (block stack) (block (roomBelow k)) ts :=
  counts_blockWith (nests_within stack k fun n _ => counts_statement n (k + 1)) ts

/-! ### Functions and programs -/

section

variable {fits : Prop} {k : Int}

theorem counts_parameter (ts : List Token) : Counts fits k parameter parameter ts :=
  (counts_expectKeyword _ _).bind fun _ _ _ _ =>
    (counts_expect _ _).bind fun _ _ _ _ => counts_pure _

theorem counts_parameters (ts : List Token) : Counts fits k parameters parameters ts :=
  counts_listed counts_parameter ts

end

theorem counts_function (stack : Nat) (k : Int) (ts : List Token) :
    Counts (roomBelow k ≤ stack) k (function stack) (function (roomBelow k)) ts :=
  (counts_expectKeyword _ _).bind fun _ _ _ _ => (counts_expect _ _).bind fun _ _ _ _ =>
    (counts_expect _ _).bind fun _ _ rest _ => (counts_parameters rest).bind fun _ _ _ _ =>
      (counts_expect _ _).bind fun _ _ rest _ => (counts_block stack k rest).bind fun _ _ _ _ =>
        counts_pure _

theorem counts_programItem (stack : Nat) (k : Int) (ts : List Token) :
    Counts (roomBelow k ≤ stack) k (programItem stack) (programItem (roomBelow k)) ts := by
  refine counts_atEnd.bind fun b _ rest _ => ?_
  cases b with
  | true => exact counts_pure none
  | false => exact (counts_recovering rfl ((counts_function stack k rest).map some)).map some

/-- A program with the counter at `k` is one with the room that is left below the limit. -/
theorem counts_program (stack : Nat) (k : Int) (ts : List Token) :
    Counts (roomBelow k ≤ stack) k (program stack) (program (roomBelow k)) ts :=
  counts_peek.bind fun _ _ rest _ =>
    (counts_many (counts_programItem stack k) rest).bind fun _ _ _ _ => counts_pure _

/-! ### A stack that ends -/

/-- An opening parenthesis. -/
def opening : Token := ⟨.leftParen, "(", ⟨1, 1⟩⟩

section

variable {inner : Option (Reading Cursor (Failure GrammarCause) Measured)} {ts : List Token}
  {k : Int}
  {c : Cursor} (h : nested .expression inner opening id ⟨ts, k⟩ = ⟨.error .overflow, [], c⟩)

include h

end

end Parser

end Tricode
