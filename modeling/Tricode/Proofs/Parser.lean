import Mathlib.Logic.Relation
import Tricode.Parser
import Tricode.Proofs.Pass

/-!
# Parsers that find nothing wrong

What each primitive of `Tricode.Parser` needs of the tokens to yield a value without a finding, as
an equivalence. Tokens are taken from the front of the list: `expect` yields `t` from `t :: rest`
and leaves `rest`.

A loop yields a value by steps that each read a token (`Advances`), followed by one that says that
the loop is over; `loop_yields_iff` gives the steps as `Relation.ReflTransGen`, whose steps are
added at the end, the way a phrase grows that groups to the left.
-/

namespace Tricode

namespace Parser

variable {α β ε : Type}

/-! ### Single tokens -/

@[simp] theorem next_cons (t : Token) (ts : List Token) : next (t :: ts) = t := rfl

@[simp] theorem sees_nil (tags : List Tag) : sees tags [] = false := rfl

/-- `sees` finds a token in front if it has one of the tags and does not end the text. -/
theorem sees_cons_eq_true_iff {tags : List Tag} {t : Token} {ts : List Token} :
    sees tags (t :: ts) = true ↔ t.tag ≠ .eof ∧ t.tag ∈ tags := by
  simp [sees, next, Token.isEnd]

theorem sees_cons_of_tag {tag : Tag} {t : Token} {ts : List Token} (ht : t.tag = tag)
    (htag : tag ≠ .eof) : sees [tag] (t :: ts) = true :=
  sees_cons_eq_true_iff.2 ⟨ht ▸ htag, List.mem_singleton.2 ht⟩

theorem sees_cons_eq_false {tags : List Tag} {t : Token} {ts : List Token} (h : t.tag ∉ tags) :
    sees tags (t :: ts) = false := by
  rw [Bool.eq_false_iff, ne_eq, sees_cons_eq_true_iff]
  exact fun h' => h h'.2

/-- `sees` finds nothing of two lists of tags exactly if it finds nothing of either. -/
theorem sees_append_eq_false_iff {tags tags' : List Tag} {ts : List Token} :
    sees (tags ++ tags') ts = false ↔ sees tags ts = false ∧ sees tags' ts = false := by
  simp only [sees, List.contains_eq_mem, List.mem_append, Bool.decide_or, Bool.and_or_distrib_left,
    Bool.or_eq_false_iff]

/-- A keyword is one of the `words` if its text is. -/
theorem isKeyword_eq_true_iff {t : Token} {words : List String} :
    t.isKeyword words = true ↔ t.tag = .keyword ∧ t.text ∈ words := by
  simp [Token.isKeyword]

theorem peek_yields_iff {ts rest : List Token} {t : Token} :
    (peek : Reader ε Token).Yields ts t rest ↔ t = next ts ∧ rest = ts := by
  simp [Pass.Yields, peek, eq_comm]

theorem skip_yields_iff {ts rest : List Token} {u : Unit} :
    (skip : Reader ε Unit).Yields ts u rest ↔ rest = ts.tail := by
  simp [Pass.Yields, skip, eq_comm]

theorem check_yields_iff {tag : Tag} {ts rest : List Token} {b : Bool} :
    (check tag : Reader ε Bool).Yields ts b rest ↔ b = sees [tag] ts ∧ rest = ts := by
  simp [Pass.Yields, check, eq_comm]

theorem atEnd_yields_iff {ts rest : List Token} {b : Bool} :
    (atEnd : Reader ε Bool).Yields ts b rest ↔ b = (next ts).isEnd ∧ rest = ts := by
  simp [Pass.Yields, atEnd, eq_comm]

/-- `accept` takes nothing, and reads nothing, where no token with one of the tags is seen. -/
theorem accept_yields_none_iff {tags : List Tag} {ts rest : List Token} :
    (accept tags : Reader ε (Option Token)).Yields ts none rest ↔
      sees tags ts = false ∧ rest = ts := by
  by_cases h : sees tags ts = true
  · simp [accept, Pass.Yields, h]
  · simp [accept, Pass.Yields, h, eq_comm]

/-- `accept` takes a token if it is in front and has one of the tags. -/
theorem accept_yields_some_iff {tags : List Tag} {ts rest : List Token} {t : Token} :
    (accept tags : Reader ε (Option Token)).Yields ts (some t) rest ↔
      ts = t :: rest ∧ t.tag ≠ .eof ∧ t.tag ∈ tags := by
  cases ts with
  | nil => simp [accept, Pass.Yields]
  | cons t' ts =>
    by_cases h : sees tags (t' :: ts) = true
    · have ht := sees_cons_eq_true_iff.1 h
      simp only [accept, left_list, moved_list, Pass.Yields, h, next, List.headD_cons,
        List.tail_cons, List.cons.injEq]
      constructor
      · intro h'
        obtain ⟨rfl, rfl⟩ : t' = t ∧ ts = rest := by simpa using h'
        exact ⟨⟨rfl, rfl⟩, ht⟩
      · rintro ⟨⟨rfl, rfl⟩, -⟩
        rfl
    · simp only [accept, left_list, Pass.Yields, h]
      constructor
      · intro h'
        simp at h'
      · rintro ⟨heq, ht⟩
        obtain ⟨rfl, rfl⟩ := List.cons.inj heq
        exact absurd (sees_cons_eq_true_iff.2 ht) h

/-- No keyword is accepted, and nothing is read, where the next token is none of the `words`. -/
theorem acceptKeyword_yields_none_iff {words : List String} {ts rest : List Token} :
    (acceptKeyword words : Reader ε (Option Token)).Yields ts none rest ↔
      (next ts).isKeyword words = false ∧ rest = ts := by
  by_cases h : (next ts).isKeyword words = true
  · simp [acceptKeyword, Pass.Yields, h]
  · simp [acceptKeyword, Pass.Yields, h, eq_comm]

/-- A keyword is accepted if it is in front and is one of the `words`. -/
theorem acceptKeyword_yields_some_iff {words : List String} {ts rest : List Token} {t : Token} :
    (acceptKeyword words : Reader ε (Option Token)).Yields ts (some t) rest ↔
      ts = t :: rest ∧ t.isKeyword words = true := by
  cases ts with
  | nil => simp [acceptKeyword, Pass.Yields, next, Token.beyond, Token.endAt, Token.isKeyword]
  | cons t' ts =>
    by_cases h : t'.isKeyword words = true
    · simp only [acceptKeyword, left_list, moved_list, Pass.Yields, h, next, List.headD_cons,
        List.tail_cons, List.cons.injEq]
      constructor
      · intro h'
        obtain ⟨rfl, rfl⟩ : t' = t ∧ ts = rest := by simpa using h'
        exact ⟨⟨rfl, rfl⟩, h⟩
      · rintro ⟨⟨rfl, rfl⟩, -⟩
        rfl
    · simp only [acceptKeyword, left_list, moved_list, Pass.Yields, h, next, List.headD_cons]
      constructor
      · intro h'
        simp at h'
      · rintro ⟨heq, ht⟩
        obtain ⟨rfl, rfl⟩ := List.cons.inj heq
        exact absurd ht h

/-- A failure `Yields` no value. -/
theorem not_failAt_yields {cause : GrammarCause} {t : Token} {ts rest : List Token} {a : α} :
    ¬ (failAt cause t : Parser α).Yields ts a rest := by
  intro h
  obtain ⟨_, _, hw, -⟩ := Pass.yields_bind_iff.1 h
  exact Pass.not_yields_write hw

/-- `expect` reads a token if it is in front. -/
theorem expect_yields_iff {tag : Tag} {cause : GrammarCause} {ts rest : List Token} {t : Token} :
    (expect tag cause).Yields ts t rest ↔ ts = t :: rest ∧ t.tag ≠ .eof ∧ t.tag = tag := by
  constructor
  · intro h
    obtain ⟨t?, mid, ha, h⟩ := Pass.yields_bind_iff.1 h
    cases t? with
    | some t' =>
      obtain ⟨rfl, rfl⟩ := Pass.yields_pure_iff.1 h
      simpa using accept_yields_some_iff.1 ha
    | none =>
      obtain ⟨t', mid', -, h⟩ := Pass.yields_bind_iff.1 h
      exact absurd h not_failAt_yields
  · rintro ⟨rfl, hend, htag⟩
    refine Pass.yields_bind_iff.2 ⟨some t, rest, accept_yields_some_iff.2 ?_, rfl⟩
    exact ⟨rfl, hend, by simp [htag]⟩

/-- What begins with `expect` reads that token, and then what comes behind it. -/
theorem expect_bind_yields_iff {tag : Tag} {cause : GrammarCause} {p : Token → Parser α}
    {ts rest : List Token} {a : α} :
    (expect tag cause >>= p).Yields ts a rest ↔
      ∃ t mid, ts = t :: mid ∧ t.tag ≠ .eof ∧ t.tag = tag ∧ (p t).Yields mid a rest := by
  simp only [Pass.yields_bind_iff, expect_yields_iff, and_assoc]

theorem expect_bind_yields {tag : Tag} {cause : GrammarCause} {p : Token → Parser α}
    {t : Token} {mid rest : List Token} {a : α} (ht : t.tag = tag) (htag : tag ≠ .eof)
    (h : (p t).Yields mid a rest) : (expect tag cause >>= p).Yields (t :: mid) a rest :=
  expect_bind_yields_iff.2 ⟨t, mid, rfl, ht ▸ htag, ht, h⟩

/-- Where the token is in front that `expect` asks for, the parser goes on behind it. -/
theorem expect_bind_apply {tag : Tag} {cause : GrammarCause} {p : Token → Parser α} {t : Token}
    {ts : List Token} (ht : t.tag = tag) (htag : tag ≠ .eof) :
    (expect tag cause >>= p) (t :: ts) = p t ts :=
  (expect_yields_iff.2 ⟨rfl, ht ▸ htag, ht⟩).bind_apply

/-- `expectKeyword` reads a keyword if it is in front. -/
theorem expectKeyword_yields_iff {words : List String} {cause : GrammarCause} {ts rest : List Token}
    {t : Token} :
    (expectKeyword words cause).Yields ts t rest ↔ ts = t :: rest ∧ t.isKeyword words = true := by
  constructor
  · intro h
    obtain ⟨t?, mid, ha, h⟩ := Pass.yields_bind_iff.1 h
    cases t? with
    | some t' =>
      obtain ⟨rfl, rfl⟩ := Pass.yields_pure_iff.1 h
      exact acceptKeyword_yields_some_iff.1 ha
    | none =>
      obtain ⟨t', mid', -, h⟩ := Pass.yields_bind_iff.1 h
      exact absurd h not_failAt_yields
  · intro h
    exact Pass.yields_bind_iff.2 ⟨some t, rest, acceptKeyword_yields_some_iff.2 h, rfl⟩

/-- A `Construct` is read if there is a parser for the inside, and the inside is read. -/
theorem nested_yields_iff {what : Construct} {inner : Option (Parser α)} {opening : Token}
    {body : Parser α → Parser β} {ts rest : List Token} {b : β} :
    (nested what inner opening body).Yields ts b rest ↔
      ∃ p, inner = some p ∧ (body p).Yields ts b rest := by
  cases inner with
  | none => simp [not_failAt_yields]
  | some p => simp

/-! ### Loops -/

/-- One step of a loop that goes on: from a value and the tokens in front of it to the next. -/
def Steps (step : α → Reader ε (Option α)) (p q : α × List Token) : Prop :=
  (step p.1).Yields p.2 (some q.1) q.2

/-- A step that ends the loop where nothing is left, and reads a token whenever it goes on. -/
structure Advances (step : α → Reader ε (Option α)) : Prop where
  stops : ∀ a, (step a).Yields [] none []
  reads : ∀ a ts a' rest, (step a).Yields ts (some a') rest → rest.length < ts.length

/-- With room for all tokens, a loop that `Yields` `b` has made steps to `b` and was then told to
end. -/
theorem exists_steps_of_loopFrom {step : α → Reader ε (Option α)} (hstep : Advances step) {b : α}
    {rest : List Token} (room : List Token) (a : α) (ts : List Token)
    (hroom : ts.length ≤ room.length) (h : loopFrom step room a ts [] = ⟨.ok b, [], rest⟩) :
    ∃ mid, Relation.ReflTransGen (Steps step) (a, ts) (b, mid) ∧ (step b).Yields mid none rest := by
  -- by induction on the room: a step reads a token, so the others fit into what is left of the room
  induction room generalizing a ts with
  | nil =>
    obtain rfl : ts = [] := by simpa using hroom
    obtain ⟨rfl, rfl⟩ : a = b ∧ [] = rest := by simpa [loopFrom] using h
    exact ⟨[], .refl, hstep.stops a⟩
  | cons t room ih =>
    simp only [loopFrom] at h
    split at h
    · next a' new mid hs =>
      rw [loopFrom_log, Outcome.mk.injEq, List.append_eq_nil_iff] at h
      obtain ⟨hvalue, ⟨hnew, hlog⟩, hstate⟩ := h
      obtain rfl : new = [] := by simpa using hnew
      have hlt := hstep.reads a ts a' mid hs
      simp only [List.length_cons] at hroom
      obtain ⟨last, hsteps, hend⟩ := ih a' mid (by omega) (Outcome.eq_mk hvalue hlog hstate)
      have hfirst : Steps step (a, ts) (a', mid) := hs
      exact ⟨last, .head hfirst hsteps, hend⟩
    · next new mid hs =>
      obtain ⟨rfl, rfl, rfl⟩ : a = b ∧ new = [] ∧ mid = rest := by simpa using h
      exact ⟨ts, .refl, hs⟩
    · simp at h

/-- With room for all tokens, a loop that can make steps to `b`, and is told to end there, `Yields`
`b`. -/
theorem loopFrom_of_steps {step : α → Reader ε (Option α)} (hstep : Advances step) {b : α}
    {mid rest : List Token} (hend : (step b).Yields mid none rest) (p : α × List Token)
    (hsteps : Relation.ReflTransGen (Steps step) p (b, mid)) :
    ∀ room, p.2.length ≤ room.length → loopFrom step room p.1 p.2 [] = ⟨.ok b, [], rest⟩ := by
  -- by induction on the steps, from the first one on
  induction hsteps using Relation.ReflTransGen.head_induction_on with
  | refl =>
    intro room hroom
    cases room with
    | nil =>
      obtain rfl : mid = [] := by simpa using hroom
      obtain ⟨-, rfl⟩ := hend.unique (hstep.stops b)
      rfl
    | cons t room =>
      rw [Pass.Yields] at hend
      simp [loopFrom, hend]
  | @head p q hpq _ ih =>
    intro room hroom
    have hlt := hstep.reads _ _ _ _ hpq
    cases room with
    | nil =>
      simp only [List.length_nil] at hroom
      omega
    | cons t room =>
      rw [Steps, Pass.Yields] at hpq
      simp only [List.length_cons] at hroom
      simpa [loopFrom, hpq] using ih room (by omega)

/-- A loop `Yields` what its `Steps` lead to, if it is told to end there. -/
theorem loop_yields_iff {step : α → Reader ε (Option α)} (hstep : Advances step) {a b : α}
    {ts rest : List Token} :
    (loop step a).Yields ts b rest ↔
      ∃ mid, Relation.ReflTransGen (Steps step) (a, ts) (b, mid) ∧ (step b).Yields mid none rest :=
  ⟨exists_steps_of_loopFrom hstep ts a ts (Nat.le_refl _),
    fun ⟨_, hsteps, hend⟩ => loopFrom_of_steps hstep hend (a, ts) hsteps ts (Nat.le_refl _)⟩

/-! ### Lists of items -/

/-- The items `as` stand one behind the other in front of `rest`. -/
inductive Items (item : Reader ε (Option α)) : List Token → List α → List Token → Prop where
  | nil {ts : List Token} : Items item ts [] ts
  | cons {ts mid rest : List Token} {a : α} {as : List α} (head : item.Yields ts (some a) mid)
    (tail : Items item mid as rest) : Items item ts (a :: as) rest

/-- An item that is missing where nothing is left, and reads a token whenever it is there. -/
structure Consumes (item : Reader ε (Option α)) : Prop where
  stops : item.Yields [] none []
  reads : ∀ ts a rest, item.Yields ts (some a) rest → rest.length < ts.length

/-- The step by which `many` collects items, the last of them first. -/
def collect (item : Reader ε (Option α)) (found : List α) : Reader ε (Option (List α)) := do
  match ← item with
  | some a => pure (some (a :: found))
  | none => pure none

/-- `collect` finds one more item if there is one. -/
theorem collect_yields_some_iff {item : Reader ε (Option α)} {found found' : List α}
    {ts rest : List Token} :
    (collect item found).Yields ts (some found') rest ↔
      ∃ a, item.Yields ts (some a) rest ∧ found' = a :: found := by
  constructor
  · intro h
    obtain ⟨a?, mid, hitem, h⟩ := Pass.yields_bind_iff.1 h
    cases a? with
    | none => simp [Pass.yields_pure_iff] at h
    | some a =>
      obtain ⟨heq, rfl⟩ := Pass.yields_pure_iff.1 h
      exact ⟨a, hitem, Option.some.inj heq⟩
  · rintro ⟨a, hitem, rfl⟩
    exact Pass.yields_bind_iff.2 ⟨some a, rest, hitem, rfl⟩

/-- `collect` ends where there is no item. -/
theorem collect_yields_none_iff {item : Reader ε (Option α)} {found : List α}
    {ts rest : List Token} :
    (collect item found).Yields ts none rest ↔ item.Yields ts none rest := by
  constructor
  · intro h
    obtain ⟨a?, mid, hitem, h⟩ := Pass.yields_bind_iff.1 h
    cases a? with
    | none =>
      obtain ⟨-, rfl⟩ := Pass.yields_pure_iff.1 h
      exact hitem
    | some a => simp [Pass.yields_pure_iff] at h
  · intro hitem
    exact Pass.yields_bind_iff.2 ⟨none, rest, hitem, rfl⟩

theorem advances_collect {item : Reader ε (Option α)} (hitem : Consumes item) :
    Advances (collect item) where
  stops found := collect_yields_none_iff.2 hitem.stops
  reads found ts found' rest h := by
    obtain ⟨a, ha, -⟩ := collect_yields_some_iff.1 h
    exact hitem.reads ts a rest ha

/-- The steps of `collect` are a row of items, found in reverse. -/
theorem exists_items_of_steps {item : Reader ε (Option α)} {p q : List α × List Token}
    (h : Relation.ReflTransGen (Steps (collect item)) p q) :
    ∃ as, Items item p.2 as q.2 ∧ q.1 = as.reverse ++ p.1 := by
  induction h using Relation.ReflTransGen.head_induction_on with
  | refl => exact ⟨[], .nil, rfl⟩
  | head hstep _ ih =>
    obtain ⟨a, ha, hfound⟩ := collect_yields_some_iff.1 hstep
    obtain ⟨as, has, hq⟩ := ih
    exact ⟨a :: as, .cons ha has, by rw [hq, hfound]; simp⟩

/-- A row of `Items` is collected step by step. -/
theorem steps_of_items {item : Reader ε (Option α)} {ts rest : List Token} {as : List α}
    (h : Items item ts as rest) (found : List α) :
    Relation.ReflTransGen (Steps (collect item)) (found, ts) (as.reverse ++ found, rest) := by
  induction h generalizing found with
  | nil => exact .refl
  | @cons ts mid rest a as ha _ ih =>
    have hstep : Steps (collect item) (found, ts) (a :: found, mid) :=
      collect_yields_some_iff.2 ⟨a, ha, rfl⟩
    have hrest := ih (a :: found)
    simp only [List.reverse_cons, List.append_assoc, List.singleton_append]
    exact .head hstep hrest

/-- A repetition `Yields` a row of `Items`, up to where there is none. -/
theorem many_yields_iff {item : Reader ε (Option α)} (hitem : Consumes item)
    {ts rest : List Token} {as : List α} :
    (many item).Yields ts as rest ↔ ∃ mid, Items item ts as mid ∧ item.Yields mid none rest := by
  have hloop := @loop_yields_iff _ _ _ (advances_collect hitem) []
  constructor
  · intro h
    obtain ⟨found, mid, h, hpure⟩ := Pass.yields_bind_iff.1 h
    obtain ⟨rfl, rfl⟩ := Pass.yields_pure_iff.1 hpure
    obtain ⟨last, hsteps, hend⟩ := hloop.1 h
    obtain ⟨as, has, hfound⟩ := exists_items_of_steps hsteps
    -- the loop starts with nothing, so it has found the row and no more
    obtain rfl : found = as.reverse := by simpa using hfound
    refine ⟨last, ?_, collect_yields_none_iff.1 hend⟩
    rw [List.reverse_reverse]
    exact has
  · rintro ⟨mid, has, hend⟩
    refine Pass.yields_bind_iff.2 ⟨as.reverse, rest, ?_, by simp [Pass.yields_pure_iff]⟩
    refine hloop.2 ⟨mid, ?_, collect_yields_none_iff.2 hend⟩
    simpa using steps_of_items has []

/-- A list that may be empty, up to a closing parenthesis. -/
def listed (item : Parser α) : Parser (List α) := do
  if ← check .rightParen then pure [] else commaSeparated item

/-- What is `listed` in parentheses is empty if the parenthesis closes at once, and separated by
commas otherwise. -/
theorem listed_yields_iff {item : Parser α} {ts rest : List Token} {as : List α} :
    (listed item).Yields ts as rest ↔
      sees [.rightParen] ts = true ∧ as = [] ∧ rest = ts ∨
        sees [.rightParen] ts = false ∧ (commaSeparated item).Yields ts as rest := by
  constructor
  · intro h
    obtain ⟨b, mid, hcheck, h⟩ := Pass.yields_bind_iff.1 h
    obtain ⟨rfl, rfl⟩ := check_yields_iff.1 hcheck
    cases hsees : sees [.rightParen] mid with
    | true =>
      rw [hsees] at h
      exact .inl ⟨rfl, Pass.yields_pure_iff.1 h⟩
    | false =>
      rw [hsees] at h
      exact .inr ⟨rfl, h⟩
  · rintro (⟨hsees, rfl, rfl⟩ | ⟨hsees, h⟩)
    · exact Pass.yields_bind_iff.2 ⟨true, rest, check_yields_iff.2 ⟨hsees.symm, rfl⟩, rfl⟩
    · exact Pass.yields_bind_iff.2 ⟨false, ts, check_yields_iff.2 ⟨hsees.symm, rfl⟩, h⟩

end Parser

end Tricode
