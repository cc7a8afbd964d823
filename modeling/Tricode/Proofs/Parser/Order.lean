import Tricode.Proofs.Parser.Aim

/-!
# Findings come in the order of the text

In a row of numbered tokens, the findings of a run rise from where the run began to where it stopped
(`Parser.Trail`). After a success they lie before the next token, so what is found later is about
later tokens; after a failure one of them may be about the next token itself, but then recovery
leaves this token behind. Only at the end there is nothing to leave behind: each block that is still
open there is reported, from the innermost to the outermost, and in front of them the failure that
led to the end. As blocks are nested at most as deeply as there is room, there are at most so many
findings at the end and one more (`trails_block`).
-/

namespace Tricode

namespace Parser

open Pass

variable {α β ε : Type}

/-! ### Numbers that rise -/

/-- The numbers of the tokens that the findings are about. -/
def numbers (log : List (Finding GrammarCause)) : List Nat :=
  log.map fun f => f.pos.number

theorem numbers_append (log log' : List (Finding GrammarCause)) :
    numbers (log ++ log') = numbers log ++ numbers log' :=
  List.map_append

/-- The numbers rise from `lo` on, except that `stop` may be repeated, so that it is there up to `n`
times. -/
structure Rising (stop lo n : Nat) (is : List Nat) : Prop where
  pairwise : is.Pairwise fun i j => i < j ∨ i = stop ∧ j = stop
  ge : ∀ i ∈ is, lo ≤ i
  count_le : is.count stop ≤ n

section

variable {stop lo n : Nat} {is js : List Nat}

theorem rising_nil : Rising stop lo n [] :=
  ⟨.nil, List.forall_mem_nil _, Nat.zero_le _⟩

theorem rising_singleton {i : Nat} (hge : lo ≤ i) (hn : 1 ≤ n) : Rising stop lo n [i] := by
  refine ⟨List.pairwise_singleton _ i, List.forall_mem_singleton.2 hge, ?_⟩
  exact Nat.le_trans List.count_le_length hn

theorem Rising.mono {lo' : Nat} (h : Rising stop lo' n is) (hlo : lo ≤ lo') : Rising stop lo n is :=
  { h with ge := fun i hi => Nat.le_trans hlo (h.ge i hi) }

/-- Numbers below `mid` in front of numbers from `mid` on. -/
theorem Rising.append {mid n' : Nat} (h : Rising stop lo n' is) (h' : Rising stop mid n js)
    (hlt : ∀ i ∈ is, i < mid) (hlo : lo ≤ mid) (hmid : mid ≤ stop) :
    Rising stop lo n (is ++ js) where
  pairwise := List.pairwise_append.2 ⟨h.pairwise, h'.pairwise,
    fun i hi j hj => .inl (Nat.lt_of_lt_of_le (hlt i hi) (h'.ge j hj))⟩
  ge := List.forall_mem_append.2 ⟨h.ge, fun j hj => Nat.le_trans hlo (h'.ge j hj)⟩
  count_le := by
    have hnone : is.count stop = 0 :=
      List.count_eq_zero.2 fun hstop => Nat.lt_irrefl _ (Nat.lt_of_lt_of_le (hlt stop hstop) hmid)
    rw [List.count_append, hnone, Nat.zero_add]
    exact h'.count_le

/-- `Rising` numbers with one more at the end. -/
theorem Rising.concat_stop (h : Rising stop lo n is) (hle : ∀ i ∈ is, i ≤ stop) (hlo : lo ≤ stop) :
    Rising stop lo (n + 1) (is ++ [stop]) where
  pairwise := by
    refine List.pairwise_append.2 ⟨h.pairwise, List.pairwise_singleton _ _, fun i hi j hj => ?_⟩
    obtain rfl := List.mem_singleton.1 hj
    have hi := hle i hi
    omega
  ge := List.forall_mem_append.2 ⟨h.ge, List.forall_mem_singleton.2 hlo⟩
  count_le := by
    rw [List.count_append, List.count_singleton_self]
    exact Nat.succ_le_succ h.count_le

end

/-! ### Trails -/

section

variable {stop lo n : Nat}

/-- The findings are about tokens before the next one. -/
def Passed (log : List (Finding GrammarCause)) (rest : List Token) : Prop :=
  ∀ i ∈ numbers log, i < front rest

/-- In front of `rest`, which is further on in the row, findings have been made that rise from `lo`
on up to the next token. There are up to `n` of them at the end. -/
structure Tracked (stop lo n : Nat) (log : List (Finding GrammarCause)) (rest : List Token) :
    Prop where
  row : Row stop rest
  forward : lo ≤ front rest
  rising : Rising stop lo n (numbers log)
  le : ∀ i ∈ numbers log, i ≤ front rest

theorem passed_nil (rest : List Token) : Passed [] rest :=
  List.forall_mem_nil _

/-- Findings that were `Passed` at an earlier token were passed at a later one. -/
theorem Passed.append {log log' : List (Finding GrammarCause)} {mid rest : List Token}
    (h : Passed log mid) (h' : Passed log' rest) (hforward : front mid ≤ front rest) :
    Passed (log ++ log') rest := by
  unfold Passed
  rw [numbers_append]
  exact List.forall_mem_append.2 ⟨fun i hi => Nat.lt_of_lt_of_le (h i hi) hforward, h'⟩

/-- Without findings, `Tracked` has nothing to show. -/
theorem tracked_nil {rest : List Token} (hrow : Row stop rest) (hlo : lo ≤ front rest) :
    Tracked stop lo n [] rest :=
  ⟨hrow, hlo, rising_nil, List.forall_mem_nil _⟩

/-- One finding between the bound and the next token is `Tracked`. -/
theorem tracked_singleton {f : Finding GrammarCause} {rest : List Token} (hrow : Row stop rest)
    (hge : lo ≤ f.pos.number) (hle : f.pos.number ≤ front rest) :
    Tracked stop lo (n + 1) [f] rest :=
  ⟨hrow, Nat.le_trans hge hle, rising_singleton hge (Nat.succ_le_succ (Nat.zero_le n)),
    List.forall_mem_singleton.2 hle⟩

theorem Tracked.mono {lo' : Nat} {log : List (Finding GrammarCause)} {rest : List Token}
    (h : Tracked stop lo' n log rest) (hlo : lo ≤ lo') : Tracked stop lo n log rest :=
  { h with
    forward := Nat.le_trans hlo h.forward
    rising := h.rising.mono hlo }

/-- Of `Tracked` findings there may be fewer at the end. -/
theorem Tracked.succ {log : List (Finding GrammarCause)} {rest : List Token}
    (h : Tracked stop lo n log rest) : Tracked stop lo (n + 1) log rest :=
  { h with rising := { h.rising with count_le := Nat.le_succ_of_le h.rising.count_le } }

/-- At the end, one finding more is `Tracked`. -/
theorem Tracked.concat {log : List (Finding GrammarCause)} {rest : List Token}
    {cause : GrammarCause} (h : Tracked stop lo n log rest) (hstop : front rest = stop) :
    Tracked stop lo (n + 1) (log ++ [⟨cause, (next rest).pos⟩]) rest := by
  -- the end has the number `stop`
  have hnumbers : numbers (log ++ [⟨cause, (next rest).pos⟩]) = numbers log ++ [stop] := by
    rw [numbers_append, ← hstop]
    rfl
  have hle : ∀ i ∈ numbers log, i ≤ stop := fun i hi => hstop ▸ h.le i hi
  refine ⟨h.row, h.forward, ?_, ?_⟩
  · rw [hnumbers]
    exact h.rising.concat_stop hle (hstop ▸ h.forward)
  · rw [hnumbers, hstop]
    exact List.forall_mem_append.2 ⟨hle, List.forall_mem_singleton.2 (Nat.le_refl stop)⟩

/-- `Tracked` findings behind others, all about later tokens. -/
theorem Tracked.append {n' : Nat} {log log' : List (Finding GrammarCause)} {mid rest : List Token}
    (h : Tracked stop lo n' log mid) (hpassed : Passed log mid)
    (h' : Tracked stop (front mid) n log' rest) : Tracked stop lo n (log ++ log') rest where
  row := h'.row
  forward := Nat.le_trans h.forward h'.forward
  rising := by
    rw [numbers_append]
    exact h.rising.append h'.rising hpassed h.forward h.row.front_le_stop
  le := by
    rw [numbers_append]
    exact List.forall_mem_append.2
      ⟨fun i hi => Nat.le_of_lt (Nat.lt_of_lt_of_le (hpassed i hi) h'.forward), h'.le⟩

/-- The findings of the run are tracked, and if it has succeeded, they lie before the next token. -/
structure Trail (stop lo n : Nat) (r : Outcome (List Token) (Finding GrammarCause) ε α) :
    Prop extends
    Tracked stop lo n r.log r.state where
  passed : ∀ a, r.value = .ok a → Passed r.log r.state

/-- From `ts`, if it is a row that begins no earlier than with the number `lo`, the run leaves a
trail. -/
def Trails (stop lo n : Nat) (p : Reader ε α) (ts : List Token) : Prop :=
  Row stop ts → lo ≤ front ts → Trail stop lo n (p ts)

theorem trails_pure (a : α) (ts : List Token) : Trails stop lo n (pure a : Reader ε α) ts :=
  fun hrow hlo => ⟨tracked_nil hrow hlo, fun _ _ => passed_nil ts⟩

/-- A parser that `Aims` leaves one finding at most, and so `Trails`. -/
theorem Aims.trails {p : Reader ε α} {ts : List Token} (h : Aims stop lo p ts)
    (hlocal : Local p ts) :
    Trails stop lo (n + 1) p ts := by
  intro hrow hlo
  obtain ⟨hrest, hforward⟩ := hrow.of_local hlocal
  obtain ⟨hsilent, hreports⟩ := h hrow hlo
  cases hr : p ts with
  | mk value log rest =>
    rw [hr] at hrest hforward hsilent hreports
    -- a parser that succeeds has found nothing, and one that fails has found one thing
    cases value with
    | ok a =>
      obtain rfl : log = [] := hsilent a rfl
      exact ⟨tracked_nil hrest (Nat.le_trans hlo hforward), fun _ _ => passed_nil rest⟩
    | error e =>
      obtain ⟨f, hlog, hge, hle⟩ := hreports e rfl
      obtain rfl : log = [f] := hlog
      exact ⟨tracked_singleton hrest hge hle, fun a ha => by cases ha⟩

/-- Where a parser `Trails` behind another, the second finds what is further on. -/
theorem Trails.bind {p : Reader ε α} {f : α → Reader ε β} {ts : List Token}
    (hp : Trails stop lo n p ts)
    (hf : ∀ a log rest, p ts = ⟨.ok a, log, rest⟩ → Trails stop (front rest) n (f a) rest) :
    Trails stop lo n (p >>= f) ts := by
  intro hrow hlo
  obtain ⟨htracked, hpassed⟩ := hp hrow hlo
  cases hr : p ts with
  | mk value log rest =>
    rw [hr] at htracked hpassed
    cases value with
    | error e =>
      rw [bind_of_error hr]
      exact ⟨htracked, fun a ha => by cases ha⟩
    | ok a =>
      -- what was found lies before the next token, and what follows is found from there on
      have hpassed := hpassed a rfl
      obtain ⟨htracked', hpassed'⟩ := hf a log rest hr htracked.row (Nat.le_refl _)
      rw [bind_of_ok hr]
      exact ⟨htracked.append hpassed htracked',
        fun b hb => hpassed.append (hpassed' b hb) htracked'.forward⟩

theorem Trails.map {p : Reader ε α} {ts : List Token} (hp : Trails stop lo n p ts) (f : α → β) :
    Trails stop lo n (f <$> p) ts := by
  rw [← bind_pure_comp]
  exact hp.bind fun a _ rest _ => trails_pure (f a) rest

/-- Behind a token that was taken, the `Trail` begins with that token at the earliest. -/
theorem Trails.of_cons {p : Reader ε α} {t : Token} {ts : List Token} (ht : t.isEnd = false)
    (hp : Trails stop t.pos.number n p ts) (hrow : Row stop (t :: ts)) (hlo : lo ≤ t.pos.number) :
    Trail stop lo n (p ts) := by
  obtain ⟨hrest, hlt⟩ := hrow.tail ht
  obtain ⟨htracked, hpassed⟩ := hp hrest (Nat.le_of_lt hlt)
  exact ⟨htracked.mono hlo, hpassed⟩

theorem trails_expect (tag : Tag) (cause : GrammarCause) (ts : List Token) :
    Trails stop lo (n + 1) (expect tag cause) ts :=
  (aims_expect tag cause ts).trails (local_expect tag cause ts)

theorem trails_expression (room : Nat) (ts : List Token) :
    Trails stop lo (n + 1) (expression room) ts :=
  (aims_expression room lo ts).trails (local_expression room ts)

theorem trails_acceptKeyword (words : List String) (ts : List Token) :
    Trails stop lo (n + 1) (acceptKeyword words : Parser (Option Token)) ts :=
  ((picks_acceptKeyword words).aims ts).trails (local_acceptKeyword words ts)

theorem trails_accept (tags : List Tag) (ts : List Token) :
    Trails stop lo (n + 1) (accept tags : Parser (Option Token)) ts :=
  ((picks_accept tags).aims ts).trails (local_accept tags ts)

theorem trails_check (tag : Tag) (ts : List Token) :
    Trails stop lo (n + 1) (check tag : Parser Bool) ts :=
  (aims_check tag ts).trails (local_check tag ts)

/-! ### Statements -/

theorem trails_declaration (room : Nat) (type : Token) (ts : List Token) :
    Trails stop lo (n + 1) (declaration room type) ts := by
  refine (trails_expect _ _ ts).bind fun name _ rest _ =>
    (trails_accept _ rest).bind fun t? _ rest _ => ?_
  cases t? with
  | none =>
    exact (trails_pure _ rest).bind fun _ _ rest _ =>
      (trails_expect _ _ rest).bind fun _ _ rest _ => trails_pure _ rest
  | some sign =>
    exact (trails_expression room rest).bind fun _ _ rest _ => (trails_pure _ rest).bind
      fun _ _ rest _ => (trails_expect _ _ rest).bind fun _ _ rest _ => trails_pure _ rest

theorem trails_returnStatement (room : Nat) (word : Token) (ts : List Token) :
    Trails stop lo (n + 1) (returnStatement room word) ts := by
  refine (trails_check _ ts).bind fun b _ rest _ => ?_
  cases b with
  | true =>
    exact (trails_pure _ rest).bind fun _ _ rest _ =>
      (trails_expect _ _ rest).bind fun _ _ rest _ => trails_pure _ rest
  | false =>
    exact (trails_expression room rest).bind fun _ _ rest _ => (trails_pure _ rest).bind
      fun _ _ rest _ => (trails_expect _ _ rest).bind fun _ _ rest _ => trails_pure _ rest

section

variable {block : Parser Block} (h : ∀ lo ts, Trails stop lo (n + 1) block ts)

include h

theorem trails_conditional (room : Nat) (word : Token) (ts : List Token) :
    Trails stop lo (n + 1) (conditional room block word) ts := by
  refine (trails_expect _ _ ts).bind fun _ _ rest _ => (trails_expression room rest).bind
    fun cond _ rest _ => (trails_expect _ _ rest).bind fun _ _ rest _ => (h _ rest).bind
      fun body _ rest _ => (trails_acceptKeyword _ rest).bind fun t? _ rest _ => ?_
  cases t? with
  | none => exact trails_pure _ rest
  | some other => exact (h _ rest).bind fun _ _ rest _ => trails_pure _ rest

theorem trails_whileLoop (room : Nat) (word : Token) (ts : List Token) :
    Trails stop lo (n + 1) (whileLoop room block word) ts :=
  (trails_expect _ _ ts).bind fun _ _ rest _ => (trails_expression room rest).bind fun _ _ rest _ =>
    (trails_expect _ _ rest).bind fun _ _ rest _ => (h _ rest).bind fun _ _ rest _ =>
      trails_pure _ rest

/-- `keywordStatement` blames a keyword that begins no statement when it has been taken. -/
theorem trails_keywordStatement (room : Nat) {t : Token} {ts : List Token}
    (ht : t.pos.number < front ts) :
    Trails stop t.pos.number (n + 1) (keywordStatement room block t) ts := by
  unfold keywordStatement
  split
  · exact (trails_declaration room t ts).map some
  split
  · exact (trails_conditional h room t ts).map some
  split
  · exact (trails_whileLoop h room t ts).map some
  split
  · exact (trails_returnStatement room t ts).map some
  · intro hrow hlo
    exact ⟨tracked_singleton hrow (Nat.le_refl _) hlo, fun _ _ => List.forall_mem_singleton.2 ht⟩

theorem trails_statementWith (room : Nat) (ts : List Token) :
    Trails stop lo (n + 1) (statementWith room block) ts := by
  rw [statementWith_eq]
  intro hrow hlo
  have hpeek : (peek : Parser Token).Yields ts (next ts) ts := rfl
  rw [hpeek.bind_apply]
  split
  · next hkeyword =>
    rw [Bool.and_eq_true, beq_iff_eq] at hkeyword
    obtain ⟨us, hus⟩ := hrow.exists_cons
    have ht : (next ts).isEnd = false := by
      rw [Token.isEnd, hkeyword.1]
      rfl
    have hskip : (skip : Parser Unit).Yields ts () us := by
      rw [hus]
      rfl
    rw [hskip.bind_apply]
    rw [hus] at hrow
    exact (trails_keywordStatement h room (hrow.tail ht).2).of_cons ht hrow hlo
  · exact (trails_expression room ts).bind (fun e _ rest _ => (trails_expect _ _ rest).bind
      fun _ _ rest _ => trails_pure _ rest) hrow hlo

end

/-! ### Recovery -/

/-- The findings are tracked, and unless the end is reached, they lie before the next token. -/
structure Resumed (stop lo n : Nat) (log : List (Finding GrammarCause)) (rest : List Token) :
    Prop extends
    Tracked stop lo n log rest where
  passed : front rest < stop → Passed log rest

/-- From `ts`, if it is a row that begins no earlier than with the number `lo`, the run has
recovered from what it has found, or has come to the end. -/
def Resumes (stop lo n : Nat) (p : Reader ε α) (ts : List Token) : Prop :=
  Row stop ts → lo ≤ front ts → Resumed stop lo n (p ts).log (p ts).state

/-- A run that finds and reads nothing `Resumes`. -/
theorem resumes_of_still {p : Reader ε α} {ts : List Token} {value : Except ε α}
    (h : p ts = ⟨value, [], ts⟩) : Resumes stop lo n p ts := by
  intro hrow hlo
  rw [h]
  exact ⟨tracked_nil hrow hlo, fun _ => passed_nil ts⟩

/-- A run that `Resumes` still does so if its value is then looked at without reading on. -/
theorem Resumes.bind_still {p : Reader ε α} {f : α → Reader ε β} {ts : List Token}
    (hp : Resumes stop lo n p ts) (hf : ∀ a rest, ∃ b, f a rest = ⟨.ok b, [], rest⟩) :
    Resumes stop lo n (p >>= f) ts := by
  intro hrow hlo
  have hresumed := hp hrow hlo
  cases hr : p ts with
  | mk value log rest =>
    rw [hr] at hresumed
    cases value with
    | error e =>
      rw [bind_of_error hr]
      exact hresumed
    | ok a =>
      obtain ⟨b, hb⟩ := hf a rest
      rw [bind_eq_of_silent hr hb]
      exact hresumed

theorem Resumes.map {p : Reader ε α} {ts : List Token} (hp : Resumes stop lo n p ts) (f : α → β) :
    Resumes stop lo n (f <$> p) ts := by
  rw [← bind_pure_comp]
  exact hp.bind_still fun a _ => ⟨f a, rfl⟩

/-- In a `Row`, recovery leaves the next token behind, unless it is the end. -/
theorem Row.front_lt_recovered {ts : List Token} (h : Row stop ts)
    (hlt : front (recovered ts) < stop) :
    front ts < front (recovered ts) := by
  obtain ⟨w, hw, hends⟩ := (local_synchronize (ε := Empty) ts).reads
  have hw : ts = w ++ recovered ts := hw
  cases w with
  | nil =>
    -- nothing was skipped, so the text has ended
    have hend : (next ts).isEnd = true := by
      by_contra hend
      have hshorter := length_recovered_lt (Bool.not_eq_true _ ▸ hend)
      rw [List.nil_append] at hw
      rw [← hw] at hshorter
      exact Nat.lt_irrefl _ hshorter
    rw [List.nil_append] at hw
    rw [← hw, h.isEnd_iff.1 hend] at hlt
    exact absurd hlt (Nat.lt_irrefl _)
  | cons t w =>
    rw [hw] at h
    have ht := h.lt_front_of_append hends List.mem_cons_self
    have hfront : front ts = t.pos.number := by
      rw [hw]
      rfl
    rwa [hfront]

/-- Behind `recovering`, the findings lie before the next token, unless the end is reached. -/
theorem resumes_recovering {raise : Empty → ε} {p : Parser (Option α)} {ts : List Token}
    (hp : Trails stop lo n p ts) :
    Resumes stop lo n (recovering raise p : Reader ε (Option α)) ts := by
  intro hrow hlo
  obtain ⟨htracked, hpassed⟩ := hp hrow hlo
  cases hr : p ts with
  | mk value log rest =>
    rw [hr] at htracked hpassed
    cases value with
    | ok a? =>
      rw [recovering_of_ok hr]
      exact ⟨htracked, fun _ => hpassed a? rfl⟩
    | error e =>
      rw [recovering_of_error hr]
      obtain ⟨hrest, hforward, hrising, hle⟩ := htracked
      -- recovery goes forward, and past the token that was blamed
      obtain ⟨hrow', hforward'⟩ := hrest.of_local (local_synchronize (ε := Empty) rest)
      exact ⟨⟨hrow', Nat.le_trans hforward hforward', hrising,
        fun i hi => Nat.le_trans (hle i hi) hforward'⟩,
        fun hbefore i hi => Nat.lt_of_le_of_lt (hle i hi) (hrest.front_lt_recovered hbefore)⟩

/-- A loop each of whose steps `Resumes` finds nothing behind the end. -/
theorem Runs.resumed {step : α → Reader ε (Option α)}
    (hstep : ∀ a lo ts, Resumes stop lo n (step a) ts)
    (hend : ∀ a ts, (next ts).isEnd = true → step a ts = ⟨.ok none, [], ts⟩) {a : α}
    {ts : List Token}
    {r : Outcome (List Token) (Finding GrammarCause) ε α} (h : Runs step a ts r)
    (hrow : Row stop ts) (hlo : lo ≤ front ts) : Resumed stop lo n r.log r.state := by
  induction h generalizing lo with
  | @done a ts _ _ last | @failed a ts _ _ _ last =>
    have hlast := hstep a lo ts hrow hlo
    rw [last] at hlast
    exact hlast
  | @further a a' ts rest log r first others ih =>
    have hfirst := hstep a lo ts hrow hlo
    rw [first] at hfirst
    obtain ⟨htracked, hpassed⟩ := hfirst
    rcases Nat.lt_or_eq_of_le htracked.row.front_le_stop with hbefore | hstop
    · have hpassed := hpassed hbefore
      obtain ⟨htracked', hpassed'⟩ := ih htracked.row (Nat.le_refl _)
      exact ⟨htracked.append hpassed htracked',
        fun hbefore' => hpassed.append (hpassed' hbefore') htracked'.forward⟩
    · -- the next step sees the end and is the last one
      have hlast := hend a' rest (htracked.row.isEnd_iff.2 hstop)
      obtain rfl := others.unique (.done hlast)
      have hlog : log ++ [] = log := List.append_nil log
      rw [hlog]
      exact ⟨htracked, hpassed⟩

/-- `many` has recovered if its items have. -/
theorem resumes_many {item : Reader ε (Option α)} (hpaced : Paced item)
    (hitem : ∀ lo ts, Resumes stop lo n item ts)
    (hend : ∀ ts, (next ts).isEnd = true → item ts = ⟨.ok none, [], ts⟩) (ts : List Token) :
    Resumes stop lo n (many item) ts := by
  have hcollect : ∀ (found : List α) lo ts, Resumes stop lo n (collect item found) ts := by
    intro found lo ts
    refine (hitem lo ts).bind_still fun a? rest => ?_
    cases a? <;> exact ⟨_, rfl⟩
  have hstop : ∀ (found : List α) ts, (next ts).isEnd = true →
      collect item found ts = ⟨.ok none, [], ts⟩ :=
    fun found ts hts => bind_eq_of_silent (hend ts hts) rfl
  have hloop : Resumes stop lo n (loop (collect item) []) ts :=
    fun hrow hlo => (runs_loop (progresses_collect hpaced) [] ts).resumed hcollect hstop hrow hlo
  exact hloop.bind_still fun found _ => ⟨found.reverse, rfl⟩

/-! ### Blocks -/

/-- Where `expect` does not find its token in front, it blames the next one. -/
theorem expect_cases (tag : Tag) (cause : GrammarCause) (ts : List Token) :
    expect tag cause ts = ⟨.error cause, [⟨cause, (next ts).pos⟩], ts⟩ ∨
      ∃ t rest, ts = t :: rest ∧ t.isEnd = false ∧ (expect tag cause).Yields ts t rest := by
  unfold expect
  rcases (picks_accept (ε := GrammarCause) [tag]).yields_cases ts with
    hnone | ⟨t, rest, hts, hend, hsome⟩
  · refine .inl ?_
    rw [hnone.bind_apply]
    rfl
  · refine .inr ⟨t, rest, hts, hend, ?_⟩
    rw [Pass.Yields, hsome.bind_apply]
    rfl

/-- Behind the token that `expect` has read, that token may be blamed. -/
theorem trails_expect_bind {tag : Tag} {cause : GrammarCause} {f : Token → Parser α}
    {ts : List Token} (hf : ∀ t rest, Trails stop t.pos.number (n + 1) (f t) rest) :
    Trails stop lo (n + 1) (expect tag cause >>= f) ts := by
  intro hrow hlo
  rcases expect_cases tag cause ts with hfail | ⟨t, rest, rfl, hend, hyields⟩
  · rw [bind_of_error hfail]
    exact ⟨tracked_singleton hrow hlo (Nat.le_refl _), fun a ha => by cases ha⟩
  · rw [hyields.bind_apply]
    exact (hf t rest).of_cons hend hrow hlo

/-- Behind what has recovered, a token is asked for with `expect`. At the end there is none, and
that is one more finding. -/
theorem Resumes.bind_expect {p : Parser α} {ts : List Token} (hp : Resumes stop lo n p ts)
    (tag : Tag) (cause : GrammarCause) (f : α → β) :
    Trails stop lo (n + 1) (do let a ← p; let _ ← expect tag cause; pure (f a)) ts := by
  intro hrow hlo
  obtain ⟨htracked, hpassed⟩ := hp hrow hlo
  cases hr : p ts with
  | mk value log rest =>
    rw [hr] at htracked hpassed
    cases value with
    | error e =>
      rw [bind_of_error hr]
      exact ⟨htracked.succ, fun a ha => by cases ha⟩
    | ok a =>
      have hexpect : Trails stop (front rest) (n + 1)
          (do let _ ← expect tag cause; pure (f a) : Parser β) rest :=
        (trails_expect tag cause rest).bind fun _ _ rest _ => trails_pure (f a) rest
      obtain ⟨htracked', hpassed'⟩ := hexpect htracked.row (Nat.le_refl _)
      -- before the end the findings have been passed; at the end the token is missing
      rcases Nat.lt_or_eq_of_le htracked.row.front_le_stop with hbefore | hstop
      · have hpassed := hpassed hbefore
        rw [bind_of_ok hr]
        exact ⟨htracked.append hpassed htracked',
          fun b hb => hpassed.append (hpassed' b hb) htracked'.forward⟩
      · rcases expect_cases tag cause rest with hfail | ⟨t, us, rfl, hend, -⟩
        · have hfail' := bind_of_error (f := fun _ => (pure (f a) : Parser β)) hfail
          rw [bind_of_ok hr, hfail']
          exact ⟨htracked.concat hstop, fun b hb => by cases hb⟩
        · have hend' := htracked.row.isEnd_iff.2 hstop
          rw [next_cons, hend] at hend'
          cases hend'

theorem resumes_blockItem {p : Parser (Option Stmt)} (hp : ∀ lo ts, Trails stop lo n p ts)
    (lo : Nat) (ts : List Token) : Resumes stop lo n (blockItem p) ts := by
  by_cases hstop : (sees [.rightBrace] ts || (next ts).isEnd) = true
  · exact resumes_of_still (blockItem_of_stop hstop)
  · simp only [Bool.or_eq_true, not_or, Bool.not_eq_true] at hstop
    intro hrow hlo
    rw [blockItem_apply hstop.1 hstop.2]
    exact (resumes_recovering (hp lo ts)).map some hrow hlo

/-- `blockWith` adds one finding at the end to those of its statements. -/
theorem trails_blockWith {statement : Option (Parser (Option Stmt))}
    (heager : ∀ p, statement = some p → ∀ ts, Eager p ts)
    (h : ∀ p, statement = some p → ∀ lo ts, Trails stop lo n p ts) (lo : Nat) (ts : List Token) :
    Trails stop lo (n + 1) (blockWith statement) ts := by
  refine trails_expect_bind fun brace rest => ?_
  -- a block that is too deep is one finding, about its brace
  cases statement with
  | none =>
    have hfail : Trails stop brace.pos.number (n + 1)
        (failAt (.nestedTooDeeply .block) brace : Parser (List (Option Stmt))) rest :=
      (aims_failAt _ brace rest).trails (local_failAt _ brace rest)
    exact hfail.bind fun _ _ _ hok => by cases hok
  | some p =>
    have hend : ∀ ts, (next ts).isEnd = true → blockItem p ts = ⟨.ok none, [], ts⟩ :=
      fun ts hts => blockItem_of_stop (by rw [hts, Bool.or_true])
    have hitems : Resumes stop brace.pos.number n (many (blockItem p)) rest :=
      resumes_many (paced_blockItem (heager p rfl)) (resumes_blockItem (h p rfl)) hend rest
    exact hitems.bind_expect _ _ fun found => Block.mk (found.filterMap id) brace.pos

/-- At the end there is at most one finding for each block that can still be open, and one more. -/
theorem trails_statement (room lo : Nat) (ts : List Token) :
    Trails stop lo (room + 1) (statement room) ts := by
  -- by induction on the room: each level of blocks may miss its own brace at the end
  induction room generalizing lo ts with
  | zero =>
    have hblock : ∀ lo ts, Trails stop lo 1 (blockWith none) ts :=
      trails_blockWith (fun _ hp => by cases hp) (fun _ hp => by cases hp)
    exact trails_statementWith hblock 0 ts
  | succ room ih =>
    have hblock : ∀ lo ts, Trails stop lo (room + 2) (blockWith (some (statement room))) ts :=
      trails_blockWith (fun p hp => Option.some.inj hp ▸ eager_statement room)
        (fun p hp => Option.some.inj hp ▸ ih)
    exact trails_statementWith hblock (room + 1) ts

/-- At the end there is at most one finding for each block that can still be open, and one more. -/
theorem trails_block (room lo : Nat) (ts : List Token) :
    Trails stop lo (room + 1) (block room) ts := by
  cases room with
  | zero => exact trails_blockWith (fun _ hp => by cases hp) (fun _ hp => by cases hp) lo ts
  | succ room =>
    exact trails_blockWith (fun p hp => Option.some.inj hp ▸ eager_statement room)
      (fun p hp => Option.some.inj hp ▸ trails_statement room) lo ts

/-! ### Functions and programs -/

theorem trails_function (room : Nat) (ts : List Token) :
    Trails stop lo (room + 1) (function room) ts := by
  have htype : Trails stop lo (room + 1) (expectKeyword returnTypes (.expected .returnType)) ts :=
    (aims_expectKeyword _ _ ts).trails (local_expectKeyword _ _ ts)
  have hparameters : ∀ lo ts, Trails stop lo (room + 1) (listed parameter) ts := fun lo ts =>
    (aims_listed local_parameter aims_parameter ts).trails (local_listed local_parameter ts)
  exact htype.bind fun _ _ rest _ => (trails_expect _ _ rest).bind fun _ _ rest _ =>
    (trails_expect _ _ rest).bind fun _ _ rest _ => (hparameters _ rest).bind fun _ _ rest _ =>
      (trails_expect _ _ rest).bind fun _ _ rest _ => (trails_block room _ rest).bind
        fun _ _ rest _ => trails_pure _ rest

theorem resumes_programItem (room lo : Nat) (ts : List Token) :
    Resumes stop lo (room + 1) (programItem room) ts := by
  cases hend : (next ts).isEnd with
  | true => exact resumes_of_still (programItem_of_isEnd room hend)
  | false =>
    intro hrow hlo
    rw [programItem_of_not_isEnd room hend]
    exact (resumes_recovering ((trails_function room ts).map some)).map some hrow hlo

/-- `program` has recovered from all it has found, or has come to the end. -/
theorem resumes_program (room : Nat) (ts : List Token) :
    Resumes stop lo (room + 1) (program room) ts := by
  have hitems : Resumes stop lo (room + 1) (many (programItem room)) ts :=
    resumes_many (paced_programItem room) (resumes_programItem room)
      (fun _ => programItem_of_isEnd room) ts
  intro hrow hlo
  unfold program
  rw [(peek_yields_iff.2 ⟨rfl, rfl⟩).bind_apply]
  exact hitems.bind_still (fun found _ => ⟨_, rfl⟩) hrow hlo

end

end Parser

end Tricode
