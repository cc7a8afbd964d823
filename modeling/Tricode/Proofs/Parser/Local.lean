import Tricode.Proofs.Parser.Recovery

/-!
# Runs that stop at the end

No parser looks behind the first end token, and none goes past it. `Parser.Local p ts` says so about
a run from `ts`: what the parser takes are tokens in front of the end, and tokens put behind the end
change nothing but that they are left over. Where a list has no end token, an end token put behind
it changes nothing either. `Parser.Eager` adds that the run has taken a token if it succeeds.

A loop is run with a measure, and a longer list gives it more room. That this does not matter is
because every step of a loop that goes on has taken a token (`Progresses`): the loop comes to an end
by itself, which is what `Runs` says without a measure (`loop_eq_iff_runs`).
-/

namespace Tricode

namespace Parser

open Pass

variable {α β ε : Type}

/-! ### Loops without a measure -/

/-- Steps that are made one after the other until one says that it is the last, or fails. -/
inductive Runs (step : α → Reader ε (Option α)) :
    α → List Token → Outcome (List Token) (Finding GrammarCause) ε α → Prop where
  | done {a : α} {ts rest : List Token} {log : List (Finding GrammarCause)}
    (last : step a ts = ⟨.ok none, log, rest⟩) : Runs step a ts ⟨.ok a, log, rest⟩
  | failed {a : α} {ts rest : List Token} {log : List (Finding GrammarCause)} {e : ε}
    (last : step a ts = ⟨.error e, log, rest⟩) : Runs step a ts ⟨.error e, log, rest⟩
  | further {a a' : α} {ts rest : List Token} {log : List (Finding GrammarCause)}
    {r : Outcome (List Token) (Finding GrammarCause) ε α}
    (first : step a ts = ⟨.ok (some a'), log, rest⟩) (others : Runs step a' rest r) :
    Runs step a ts ⟨r.value, log ++ r.log, r.state⟩

/-- A loop comes to one `Outcome`. -/
theorem Runs.unique {step : α → Reader ε (Option α)} {a : α} {ts : List Token}
    {r r' : Outcome (List Token) (Finding GrammarCause) ε α} (h : Runs step a ts r)
    (h' : Runs step a ts r') : r = r' := by
  -- by induction on the first run: both make the same steps, since a step has one outcome
  induction h generalizing r' with
  | done last =>
    cases h' with
    | done last' => cases last.symm.trans last'; rfl
    | failed last' => cases last.symm.trans last'
    | further first' => cases last.symm.trans first'
  | failed last =>
    cases h' with
    | done last' => cases last.symm.trans last'
    | failed last' => cases last.symm.trans last'; rfl
    | further first' => cases last.symm.trans first'
  | further first _ ih =>
    cases h' with
    | done last' => cases first.symm.trans last'
    | failed last' => cases first.symm.trans last'
    | further first' others' =>
      cases first.symm.trans first'
      rw [ih others']

/-- A `loop` whose steps take tokens comes to an end. -/
theorem runs_loop {step : α → Reader ε (Option α)} (hstep : Progresses step) (a : α)
    (ts : List Token) :
    Runs step a ts (loop step a ts) := by
  -- a step that goes on leaves fewer tokens
  induction hn : ts.length using Nat.strongRecOn generalizing a ts with
  | ind n ih =>
    rw [loop_apply hstep]
    cases hs : step a ts with
    | mk value log rest =>
      cases value with
      | error e =>
        rw [bind_of_error hs]
        exact .failed hs
      | ok a? =>
        rw [bind_of_ok hs]
        cases a? with
        | none =>
          have hlog : log ++ [] = log := List.append_nil log
          simpa [hlog] using Runs.done hs
        | some a' =>
          have hlt := hstep.reads _ _ _ _ _ hs
          exact .further hs (ih rest.length (hn ▸ hlt) a' rest rfl)

/-- A loop whose steps make progress comes to what its `Runs` come to. -/
theorem loop_eq_iff_runs {step : α → Reader ε (Option α)} (hstep : Progresses step) {a : α}
    {ts : List Token} {r : Outcome (List Token) (Finding GrammarCause) ε α} :
    loop step a ts = r ↔ Runs step a ts r :=
  ⟨fun h => h ▸ runs_loop hstep a ts, fun h => (runs_loop hstep a ts).unique h⟩

/-! ### Lists that are sealed -/

/-- Tokens behind `ts` are not read: the text ends inside `ts`, or right behind it. -/
def Sealed (ts more : List Token) : Prop :=
  (∃ t ∈ ts, t.isEnd = true) ∨ next more = .beyond

/-- The next token of a `Sealed` list is its own. -/
theorem Sealed.next_append {ts more : List Token} (h : Sealed ts more) :
    next (ts ++ more) = next ts := by
  cases ts with
  | nil =>
    rcases h with ⟨t, ht, -⟩ | h
    · cases ht
    · exact h
  | cons t ts => rfl

/-- Behind nothing at all, a list that is `Sealed` can only begin with the end. -/
theorem Sealed.eq_nil_or_cons {more : List Token} (h : Sealed [] more) :
    more = [] ∨ ∃ us, more = .beyond :: us := by
  have hnext : next more = .beyond := h.next_append
  cases more with
  | nil => exact .inl rfl
  | cons t us => exact .inr ⟨us, congrArg (· :: us) hnext⟩

/-- Where tokens in front of the end have been taken, the others are `Sealed` still. -/
theorem Sealed.of_append {w ts more : List Token} (h : Sealed (w ++ ts) more)
    (hw : ∀ t ∈ w, t.isEnd = false) : Sealed ts more := by
  rcases h with ⟨t, ht, hend⟩ | h
  · rcases List.mem_append.1 ht with ht | ht
    · rw [hw t ht] at hend
      cases hend
    · exact .inl ⟨t, ht, hend⟩
  · exact .inr h

theorem Sealed.tail {t : Token} {ts more : List Token} (h : Sealed (t :: ts) more)
    (ht : t.isEnd = false) : Sealed ts more :=
  Sealed.of_append (w := [t]) h (List.forall_mem_singleton.2 ht)

/-! ### Local runs -/

/-- From `ts` the reader takes tokens in front of the end only, and tokens behind the end are left
over and change nothing else. -/
structure Local (p : Reader ε α) (ts : List Token) : Prop where
  reads : ∃ w, ts = w ++ (p ts).state ∧ ∀ t ∈ w, t.isEnd = false
  append : ∀ more, Sealed ts more →
    p (ts ++ more) = ⟨(p ts).value, (p ts).log, (p ts).state ++ more⟩

/-- A `Local` run does not add tokens. -/
theorem Local.length_le {p : Reader ε α} {ts : List Token} (h : Local p ts) :
    (p ts).state.length ≤ ts.length := by
  obtain ⟨w, hw, -⟩ := h.reads
  have hlength := congrArg List.length hw
  rw [List.length_append] at hlength
  omega

/-- A `Reader` that looks at the next token and takes nothing. -/
theorem local_of_next {p : Reader ε α} {f : Token → Except ε α × List (Finding GrammarCause)}
    (h : ∀ ts, p ts = ⟨(f (next ts)).1, (f (next ts)).2, ts⟩) (ts : List Token) : Local p ts := by
  constructor
  · exact ⟨[], by rw [h]; rfl, List.forall_mem_nil _⟩
  · intro more hsealed
    rw [h, h, hsealed.next_append]

/-- The reader takes the next token if it is of some kind, of which the end is not. -/
structure Picks (kind : Token → Bool) (p : Reader ε (Option Token)) : Prop where
  isEnd : ∀ t, kind t = true → t.isEnd = false
  apply : ∀ ts, p ts =
    if kind (next ts) then ⟨.ok (some (next ts)), [], ts.tail⟩ else ⟨.ok none, [], ts⟩

section

variable {kind : Token → Bool} {p : Reader ε (Option Token)} (h : Picks kind p)

include h

/-- A parser that `Picks` takes a token of the kind from the front. -/
theorem Picks.apply_cons {t : Token} (ht : kind t = true) (ts : List Token) :
    p (t :: ts) = ⟨.ok (some t), [], ts⟩ := by
  rw [h.apply, next_cons, if_pos ht]
  rfl

theorem Picks.exists_cons {ts : List Token} (hts : kind (next ts) = true) :
    ∃ t us, ts = t :: us := by
  cases ts with
  | nil => exact Bool.noConfusion (h.isEnd _ hts)
  | cons t us => exact ⟨t, us, rfl⟩

/-- A token that a parser `Picks` stood in front. -/
theorem Picks.eq_cons {ts rest : List Token} {t : Token} {log : List (Finding GrammarCause)}
    (hp : p ts = ⟨.ok (some t), log, rest⟩) : ts = t :: rest := by
  by_cases hts : kind (next ts) = true
  · obtain ⟨u, us, rfl⟩ := h.exists_cons hts
    have hu : kind u = true := hts
    rw [h.apply_cons hu] at hp
    cases hp
    rfl
  · rw [h.apply, if_neg hts] at hp
    cases hp

theorem local_of_picks (ts : List Token) : Local p ts := by
  -- one token is taken, or none
  by_cases hts : kind (next ts) = true
  · obtain ⟨t, us, rfl⟩ := h.exists_cons hts
    have ht : kind t = true := hts
    constructor
    · exact ⟨[t], by rw [h.apply_cons ht]; rfl, List.forall_mem_singleton.2 (h.isEnd t ht)⟩
    · intro more _
      rw [List.cons_append, h.apply_cons ht, h.apply_cons ht]
  · have hp : p ts = ⟨.ok none, [], ts⟩ := by rw [h.apply, if_neg hts]
    constructor
    · exact ⟨[], by rw [hp]; rfl, List.forall_mem_nil _⟩
    · intro more hsealed
      rw [hp, h.apply, hsealed.next_append, if_neg hts]

end

/-- One `Local` run behind the other. -/
theorem Local.bind {p : Reader ε α} {f : α → Reader ε β} {ts : List Token} (hp : Local p ts)
    (hf : ∀ a log rest, p ts = ⟨.ok a, log, rest⟩ → Local (f a) rest) : Local (p >>= f) ts := by
  obtain ⟨⟨w, hw, hend⟩, happend⟩ := hp
  cases hr : p ts with
  | mk value log rest =>
    rw [hr] at hw happend
    cases value with
    | error e =>
      have hbind := bind_of_error (f := f) hr
      constructor
      · exact ⟨w, by rw [hbind]; exact hw, hend⟩
      · intro more hsealed
        rw [hbind, bind_of_error (happend more hsealed)]
    | ok a =>
      have hbind := bind_of_ok (f := f) hr
      obtain ⟨⟨v, hv, hend'⟩, happend'⟩ := hf a log rest hr
      constructor
      · refine ⟨w ++ v, ?_, List.forall_mem_append.2 ⟨hend, hend'⟩⟩
        rw [hbind, List.append_assoc, ← hv]
        exact hw
      · intro more hsealed
        -- the first part has not gone past the end, so the end is still in front for the second
        have hrest : Sealed rest more := Sealed.of_append (hw ▸ hsealed) hend
        rw [hbind, bind_of_ok (happend more hsealed), happend' more hrest]

theorem local_pure (a : α) (ts : List Token) : Local (pure a : Reader ε α) ts :=
  local_of_next (f := fun _ => (.ok a, [])) (fun _ => rfl) ts

theorem Local.map {p : Reader ε α} {ts : List Token} (hp : Local p ts) (f : α → β) :
    Local (f <$> p) ts := by
  rw [← bind_pure_comp]
  exact hp.bind fun a _ rest _ => local_pure (f a) rest

/-! ### Single tokens -/

theorem local_peek (ts : List Token) : Local (peek : Reader ε Token) ts :=
  local_of_next (f := fun t => (.ok t, [])) (fun _ => rfl) ts

theorem local_atEnd (ts : List Token) : Local (atEnd : Reader ε Bool) ts :=
  local_of_next (f := fun t => (.ok t.isEnd, [])) (fun _ => rfl) ts

theorem local_check (tag : Tag) (ts : List Token) : Local (check tag : Reader ε Bool) ts :=
  local_of_next (f := fun t => (.ok (!t.isEnd && [tag].contains t.tag), [])) (fun _ => rfl) ts

theorem local_failAt (cause : GrammarCause) (t : Token) (ts : List Token) :
    Local (failAt cause t : Parser α) ts :=
  local_of_next (f := fun _ => (.error cause, [⟨cause, t.pos⟩])) (fun _ => rfl) ts

theorem local_write (found : Finding GrammarCause) (ts : List Token) :
    Local (Pass.write found : Reader ε Unit) ts :=
  local_of_next (f := fun _ => (.ok (), [found])) (fun _ => rfl) ts

theorem local_skip {t : Token} (ht : t.isEnd = false) (ts : List Token) :
    Local (skip : Reader ε Unit) (t :: ts) :=
  ⟨⟨[t], rfl, List.forall_mem_singleton.2 ht⟩, fun _ _ => rfl⟩

/-- Accepting a token `Picks` those with one of the tags. -/
theorem picks_accept (tags : List Tag) :
    Picks (fun t => !t.isEnd && tags.contains t.tag) (accept tags : Reader ε (Option Token)) where
  isEnd t ht := by
    simp only [Bool.and_eq_true, Bool.not_eq_true'] at ht
    exact ht.1
  apply _ := rfl

/-- A token with another tag than the end token does not end the text. -/
theorem isEnd_of_tag_eq {t : Token} {tag : Tag} (h : t.tag = tag) (htag : tag ≠ .eof) :
    t.isEnd = false := by
  rw [Token.isEnd, h]
  exact beq_false_of_ne htag

/-- A token that `isKeyword` does not end the text. -/
theorem isEnd_of_isKeyword {t : Token} {words : List String} (h : t.isKeyword words = true) :
    t.isEnd = false :=
  isEnd_of_tag_eq (isKeyword_eq_true_iff.1 h).1 (by decide)

theorem picks_acceptKeyword (words : List String) :
    Picks (fun t => t.isKeyword words) (acceptKeyword words : Reader ε (Option Token)) where
  isEnd _ := isEnd_of_isKeyword
  apply _ := rfl

theorem local_accept (tags : List Tag) (ts : List Token) :
    Local (accept tags : Reader ε (Option Token)) ts :=
  local_of_picks (picks_accept tags) ts

theorem local_acceptKeyword (words : List String) (ts : List Token) :
    Local (acceptKeyword words : Reader ε (Option Token)) ts :=
  local_of_picks (picks_acceptKeyword words) ts

theorem local_expect (tag : Tag) (cause : GrammarCause) (ts : List Token) :
    Local (expect tag cause) ts := by
  refine (local_accept [tag] ts).bind fun t? _ rest _ => ?_
  cases t? with
  | none => exact (local_peek rest).bind fun t _ rest _ => local_failAt cause t rest
  | some t => exact local_pure t rest

theorem local_expectKeyword (words : List String) (cause : GrammarCause) (ts : List Token) :
    Local (expectKeyword words cause) ts := by
  refine (local_acceptKeyword words ts).bind fun t? _ rest _ => ?_
  cases t? with
  | none => exact (local_peek rest).bind fun t _ rest _ => local_failAt cause t rest
  | some t => exact local_pure t rest

theorem local_nested {what : Construct} {inner : Option (Parser α)} {opening : Token}
    {body : Parser α → Parser β} (h : ∀ p, inner = some p → ∀ ts, Local (body p) ts)
    (ts : List Token) : Local (nested what inner opening body) ts := by
  cases inner with
  | none => exact local_failAt _ opening ts
  | some p => exact h p rfl ts

/-! ### Taking a token -/

/-- The run is local, and if it succeeds it has taken a token. -/
structure Eager (p : Reader ε α) (ts : List Token) : Prop extends Local p ts where
  takes : ∀ a log rest, p ts = ⟨.ok a, log, rest⟩ → rest.length < ts.length

/-- What a sequence that succeeds has done. -/
theorem exists_of_bind_eq_ok {p : Reader ε α} {f : α → Reader ε β} {ts rest : List Token} {b : β}
    {log : List (Finding GrammarCause)} (h : (p >>= f) ts = ⟨.ok b, log, rest⟩) :
    ∃ a log₁ mid log₂, p ts = ⟨.ok a, log₁, mid⟩ ∧ f a mid = ⟨.ok b, log₂, rest⟩ := by
  cases hp : p ts with
  | mk value log₁ mid =>
    cases value with
    | error e =>
      rw [bind_of_error hp] at h
      cases h
    | ok a =>
      rw [bind_of_ok hp, Outcome.mk.injEq] at h
      obtain ⟨hvalue, -, hstate⟩ := h
      exact ⟨a, log₁, mid, (f a mid).log, rfl, Outcome.eq_mk hvalue rfl hstate⟩

/-- An `Eager` run takes a token at first. -/
theorem Eager.bind {p : Reader ε α} {f : α → Reader ε β} {ts : List Token} (hp : Eager p ts)
    (hf : ∀ a log rest, p ts = ⟨.ok a, log, rest⟩ → Local (f a) rest) : Eager (p >>= f) ts := by
  refine ⟨hp.toLocal.bind hf, fun b log rest h => ?_⟩
  obtain ⟨a, log₁, mid, log₂, hfirst, hsecond⟩ := exists_of_bind_eq_ok h
  have hle := (hf a log₁ mid hfirst).length_le
  rw [hsecond] at hle
  exact Nat.lt_of_le_of_lt hle (hp.takes a log₁ mid hfirst)

/-- Behind a `Local` run, an `Eager` one takes a token later on. -/
theorem Local.bind_eager {p : Reader ε α} {f : α → Reader ε β} {ts : List Token} (hp : Local p ts)
    (hf : ∀ a log rest, p ts = ⟨.ok a, log, rest⟩ → Eager (f a) rest) : Eager (p >>= f) ts := by
  refine ⟨hp.bind fun a log rest h => (hf a log rest h).toLocal, fun b log rest h => ?_⟩
  obtain ⟨a, log₁, mid, log₂, hfirst, hsecond⟩ := exists_of_bind_eq_ok h
  have hle := hp.length_le
  rw [hfirst] at hle
  exact Nat.lt_of_lt_of_le ((hf a log₁ mid hfirst).takes b log₂ rest hsecond) hle

theorem Eager.map {p : Reader ε α} {ts : List Token} (hp : Eager p ts) (f : α → β) :
    Eager (f <$> p) ts := by
  rw [← bind_pure_comp]
  exact hp.bind fun a _ rest _ => local_pure (f a) rest

/-- `failAt` takes no token, but it does not succeed either. -/
theorem eager_failAt (cause : GrammarCause) (t : Token) (ts : List Token) :
    Eager (failAt cause t : Parser α) ts := by
  refine ⟨local_failAt cause t ts, fun a log rest h => ?_⟩
  cases h

theorem eager_skip {t : Token} (ht : t.isEnd = false) (ts : List Token) :
    Eager (skip : Reader ε Unit) (t :: ts) := by
  refine ⟨local_skip ht ts, fun a log rest h => ?_⟩
  cases h
  exact Nat.lt_succ_self _

/-- A run that succeeds only with a token that a parser `Picks` has taken it. -/
theorem Picks.takes {kind : Token → Bool} {p : Parser (Option Token)} (h : Picks kind p)
    {f : Option Token → Parser α} (hnone : ∀ ts a, (f none ts).value ≠ .ok a)
    (hsome : ∀ t ts, Local (f (some t)) ts) {ts rest : List Token} {a : α}
    {log : List (Finding GrammarCause)} (hrun : (p >>= f) ts = ⟨.ok a, log, rest⟩) :
    rest.length < ts.length := by
  obtain ⟨t?, log₁, mid, log₂, hpick, hrest⟩ := exists_of_bind_eq_ok hrun
  cases t? with
  | none => exact absurd (congrArg Outcome.value hrest) (hnone mid a)
  | some t =>
    have hle := (hsome t mid).length_le
    rw [hrest] at hle
    rw [h.eq_cons hpick]
    exact Nat.lt_succ_of_le hle

theorem eager_expect (tag : Tag) (cause : GrammarCause) (ts : List Token) :
    Eager (expect tag cause) ts := by
  refine ⟨local_expect tag cause ts, fun _ _ _ h => (picks_accept [tag]).takes ?_ local_pure h⟩
  intro ts a hvalue
  cases hvalue

theorem eager_expectKeyword (words : List String) (cause : GrammarCause) (ts : List Token) :
    Eager (expectKeyword words cause) ts := by
  refine ⟨local_expectKeyword words cause ts,
    fun _ _ _ h => (picks_acceptKeyword words).takes ?_ local_pure h⟩
  intro ts a hvalue
  cases hvalue

/-! ### Items and loops -/

/-- An item that is missing where nothing is left, and that has taken a token whenever it is there,
be there findings or not. -/
structure Paced (item : Reader ε (Option α)) : Prop where
  stops : item [] = ⟨.ok none, [], []⟩
  reads : ∀ ts a log rest, item ts = ⟨.ok (some a), log, rest⟩ → rest.length < ts.length

theorem progresses_of_paced {step : α → Reader ε (Option α)} (h : ∀ a, Paced (step a)) :
    Progresses step where
  stops a := (h a).stops
  reads a ts a' log rest hstep := (h a).reads ts a' log rest hstep

theorem progresses_collect {item : Reader ε (Option α)} (h : Paced item) :
    Progresses (collect item) where
  stops found := bind_eq_of_silent h.stops rfl
  reads found ts found' log rest hstep := by
    obtain ⟨a?, log₁, mid, log₂, hitem, hfound⟩ := exists_of_bind_eq_ok hstep
    cases a? with
    | none => cases hfound
    | some a =>
      cases hfound
      exact h.reads ts a log₁ _ hitem

theorem paced_accept (tags : List Tag) : Paced (accept tags : Reader ε (Option Token)) where
  stops := rfl
  reads ts t log rest h := by
    rw [(picks_accept tags).eq_cons h]
    exact Nat.lt_succ_self _

/-- What follows a token is `Paced`, since the token was taken. -/
theorem paced_behind {tags : List Tag} {further : Token → Parser α}
    (h : ∀ t ts, Local (further t) ts) : Paced (behind tags further) where
  stops := rfl
  reads ts a log rest hitem := by
    obtain ⟨t?, log₁, mid, log₂, haccept, hrest⟩ := exists_of_bind_eq_ok hitem
    cases t? with
    | none => cases hrest
    | some t =>
      have hfurther : (some <$> further t) mid = ⟨.ok (some a), log₂, rest⟩ := hrest
      -- what is read further does not give the token back
      have hle := ((h t mid).map some).length_le
      rw [hfurther] at hle
      rw [(picks_accept tags).eq_cons haccept]
      exact Nat.lt_succ_of_le hle

/-- A loop of `Local` steps takes tokens in front of the end only. -/
theorem Runs.reads {step : α → Reader ε (Option α)} (hstep : ∀ a ts, Local (step a) ts) {a : α}
    {ts : List Token} {r : Outcome (List Token) (Finding GrammarCause) ε α} (h : Runs step a ts r) :
    ∃ w, ts = w ++ r.state ∧ ∀ t ∈ w, t.isEnd = false := by
  induction h with
  | @done a ts _ _ last | @failed a ts _ _ _ last =>
    have hreads := (hstep a ts).reads
    rw [last] at hreads
    exact hreads
  | @further a _ ts _ _ _ first _ ih =>
    have hreads := (hstep a ts).reads
    rw [first] at hreads
    obtain ⟨w, hw, hend⟩ := hreads
    obtain ⟨v, hv, hend'⟩ := ih
    refine ⟨w ++ v, ?_, List.forall_mem_append.2 ⟨hend, hend'⟩⟩
    rw [List.append_assoc, ← hv]
    exact hw

/-- A loop of `Local` steps makes the same steps with tokens behind the end. -/
theorem Runs.append {step : α → Reader ε (Option α)} (hstep : ∀ a ts, Local (step a) ts) {a : α}
    {ts more : List Token} {r : Outcome (List Token) (Finding GrammarCause) ε α}
    (h : Runs step a ts r)
    (hsealed : Sealed ts more) : Runs step a (ts ++ more) ⟨r.value, r.log, r.state ++ more⟩ := by
  induction h with
  | @done a ts _ _ last =>
    have happend := (hstep a ts).append more hsealed
    rw [last] at happend
    exact .done happend
  | @failed a ts _ _ _ last =>
    have happend := (hstep a ts).append more hsealed
    rw [last] at happend
    exact .failed happend
  | @further a _ ts rest _ _ first _ ih =>
    obtain ⟨⟨w, hw, hend⟩, happend⟩ := hstep a ts
    have happend := happend more hsealed
    rw [first] at hw happend
    -- the step has not gone past the end, so the rest is sealed
    have hrest : Sealed rest more := Sealed.of_append (hw ▸ hsealed) hend
    exact .further happend (ih hrest)

/-- A `loop` of `Local` steps that take tokens is local, however much room it has. -/
theorem local_loop {step : α → Reader ε (Option α)} (hprogresses : Progresses step)
    (hstep : ∀ a ts, Local (step a) ts) (a : α) (ts : List Token) : Local (loop step a) ts := by
  -- the loop on the longer list has another measure, but makes the same steps
  have hruns := runs_loop hprogresses a ts
  exact ⟨hruns.reads hstep, fun more hsealed =>
    (loop_eq_iff_runs hprogresses).2 (hruns.append hstep hsealed)⟩

theorem local_collect {item : Reader ε (Option α)} (hitem : ∀ ts, Local item ts) (found : List α)
    (ts : List Token) : Local (collect item found) ts := by
  refine (hitem ts).bind fun a? _ rest _ => ?_
  cases a? with
  | none => exact local_pure none rest
  | some a => exact local_pure _ rest

theorem local_many {item : Reader ε (Option α)} (hpaced : Paced item) (hitem : ∀ ts, Local item ts)
    (ts : List Token) : Local (many item) ts :=
  (local_loop (progresses_collect hpaced) (local_collect hitem) [] ts).bind
    fun found _ rest _ => local_pure found.reverse rest

theorem local_behind {tags : List Tag} {further : Token → Parser α}
    (h : ∀ t ts, Local (further t) ts) (ts : List Token) : Local (behind tags further) ts := by
  refine (local_accept tags ts).bind fun t? _ rest _ => ?_
  cases t? with
  | none => exact local_pure none rest
  | some t => exact (h t rest).map some

theorem local_listed {item : Parser α} (hitem : ∀ ts, Local item ts) (ts : List Token) :
    Local (listed item) ts := by
  have hfurther : ∀ (t : Token) ts, Local item ts := fun _ => hitem
  refine (local_check _ ts).bind fun b _ rest _ => ?_
  cases b with
  | true => exact local_pure [] rest
  | false =>
    exact (hitem rest).bind fun first _ rest _ =>
      (local_many (paced_behind hfurther) (local_behind hfurther) rest).bind
        fun others _ rest _ => local_pure _ rest

/-! ### Recovery -/

/-- `skipFrom` skips tokens in front of the end. -/
theorem exists_append_skipFrom (last : Token) (ts : List Token) :
    ∃ w, ts = w ++ skipFrom last ts ∧ ∀ t ∈ w, t.isEnd = false := by
  induction ts generalizing last with
  | nil => exact ⟨[], rfl, List.forall_mem_nil _⟩
  | cons t ts ih =>
    unfold skipFrom
    split
    · exact ⟨[], rfl, List.forall_mem_nil _⟩
    · next hskip =>
      obtain ⟨w, hw, hend⟩ := ih t
      refine ⟨t :: w, by rw [List.cons_append, ← hw], List.forall_mem_cons.2 ⟨?_, hend⟩⟩
      -- a token at which skipping goes on is not the end
      simp only [Bool.or_eq_true, not_or, Bool.not_eq_true] at hskip
      exact hskip.1.1

/-- `skipFrom` stops in front of what stands behind the end. -/
theorem skipFrom_append_of_sealed (last : Token) {ts more : List Token} (h : Sealed ts more) :
    skipFrom last (ts ++ more) = skipFrom last ts ++ more := by
  induction ts generalizing last with
  | nil =>
    -- where the text ends, nothing is skipped
    obtain rfl | ⟨us, rfl⟩ := h.eq_nil_or_cons
    · rfl
    · rfl
  | cons t ts ih =>
    rw [List.cons_append, skipFrom, skipFrom]
    split
    · rfl
    · next hskip =>
      simp only [Bool.or_eq_true, not_or, Bool.not_eq_true] at hskip
      exact ih t (h.tail hskip.1.1)

theorem local_synchronize (ts : List Token) : Local (synchronize : Reader ε Unit) ts := by
  cases ts with
  | nil =>
    refine ⟨⟨[], rfl, List.forall_mem_nil _⟩, fun more h => ?_⟩
    -- without tokens, only the end can stand behind
    obtain rfl | ⟨us, rfl⟩ := h.eq_nil_or_cons
    · rfl
    · rfl
  | cons t ts =>
    unfold synchronize
    cases ht : t.isEnd with
    | true =>
      refine ⟨⟨[], ?_, List.forall_mem_nil _⟩, fun more _ => ?_⟩
      · simp [recovered, ht]
      · simp [recovered, ht]
    | false =>
      obtain ⟨w, hw, hend⟩ := exists_append_skipFrom t ts
      refine ⟨⟨t :: w, ?_, List.forall_mem_cons.2 ⟨ht, hend⟩⟩, fun more h => ?_⟩
      · simp [recovered, ht, ← hw]
      · simp [recovered, ht, skipFrom_append_of_sealed t (h.tail ht)]

/-- `recovered` has taken a token in front of the end. -/
theorem length_recovered_lt {ts : List Token} (h : (next ts).isEnd = false) :
    (recovered ts).length < ts.length := by
  cases ts with
  | nil => cases h
  | cons t ts =>
    rw [next_cons] at h
    obtain ⟨w, hw, -⟩ := exists_append_skipFrom t ts
    have hlength := congrArg List.length hw
    rw [List.length_append] at hlength
    rw [recovered, if_neg (by simp [h]), List.length_cons]
    omega

theorem local_attempt {p : Parser α} {ts : List Token} (hp : Local p ts) :
    Local (attempt p : Reader ε (Except GrammarCause α)) ts := by
  refine ⟨hp.reads, fun more h => ?_⟩
  unfold attempt
  rw [hp.append more h]

theorem local_recovering {raise : Empty → ε} {p : Parser (Option α)} {ts : List Token}
    (hp : Local p ts) : Local (recovering raise p : Reader ε (Option α)) ts := by
  refine (local_attempt hp).bind fun value _ rest _ => ?_
  cases value with
  | ok a => exact local_pure a rest
  | error e => exact (local_synchronize rest).bind fun _ _ rest _ => local_pure none rest

/-- In front of the end, `recovering` takes a token also where the parser fails, if the parser takes
one when it succeeds. -/
theorem eager_recovering {raise : Empty → ε} {p : Parser (Option α)} {ts : List Token}
    (hp : Eager p ts) (hend : (next ts).isEnd = false) :
    Eager (recovering raise p : Reader ε (Option α)) ts := by
  refine ⟨local_recovering hp.toLocal, fun a log rest h => ?_⟩
  cases hr : p ts with
  | mk value new mid =>
    cases value with
    | ok a? =>
      rw [recovering_of_ok hr] at h
      cases h
      exact hp.takes _ _ _ hr
    | error e =>
      rw [recovering_of_error hr] at h
      cases h
      have hreads := hp.reads
      rw [hr] at hreads
      obtain ⟨w, rfl, -⟩ := hreads
      -- either the parser took nothing before it failed, and recovery does, or it took something
      -- itself
      cases w with
      | nil => exact length_recovered_lt hend
      | cons t w =>
        have hle : (recovered mid).length ≤ mid.length := (local_synchronize (ε := ε) mid).length_le
        simp only [List.cons_append, List.length_cons, List.length_append]
        omega

end Parser

end Tricode
