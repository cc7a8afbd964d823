import Tricode.Program.Parser
import Tricode.Proofs.Grammar.Expr
import Tricode.Proofs.Pairing

/-!
# Parsers on aligned tokens

A parser decides by the tags and the texts of the tokens in front of it. An alignment compares lists
in which these are the same (`Parser.Alignment`); the positions may differ. On aligned lists a
parser takes the same decisions: it takes a token from both or from none (`Accepts`), its loops make
the same steps (`agrees_loop`), it recovers at the same place (`agrees_synchronize`), and its
findings compare one by one.

A property of a single list is a comparison of the list with itself, so what the parser keeps while
it reads one list is a case of the same statements.
-/

namespace Tricode

namespace Parser

open Pass Pass.Pairing

variable {α β ε : Type}

/-- A comparison of token lists and of findings. Lists that compare are equally long, their next
tokens have the same tag and the same text, and may be taken, unless they end the text, or be
blamed. -/
structure Alignment extends Pairing (List Token) (Finding GrammarCause) where
  length_eq {ts us : List Token} : states ts us → ts.length = us.length
  tag_eq {ts us : List Token} : states ts us → (next ts).tag = (next us).tag
  text_eq {ts us : List Token} : states ts us → (next ts).text = (next us).text
  tail {ts us : List Token} : states ts us → (next ts).tag ≠ .eof → states ts.tail us.tail
  entry {ts us : List Token} (cause : GrammarCause) : states ts us →
    entries ⟨cause, (next ts).pos⟩ ⟨cause, (next us).pos⟩

namespace Alignment

variable {A : Alignment}

/-- The lists compare, and the tokens are next in them. -/
def Facing (A : Alignment) (t u : Token) (ts us : List Token) : Prop :=
  A.states ts us ∧ next ts = t ∧ next us = u

/-- The tokens are next in lists that compare. -/
def Front (A : Alignment) (t u : Token) : Prop :=
  ∃ ts us, A.Facing t u ts us

/-- Lists that compare begin with the tokens. -/
def Taken (A : Alignment) (t u : Token) : Prop :=
  ∃ ts us, A.states (t :: ts) (u :: us)

/-- Lists that compare begin with these two tokens. -/
def TakenPair (A : Alignment) (t n u k : Token) : Prop :=
  ∃ ts us, A.states (t :: n :: ts) (u :: k :: us)

/-- The tokens have just been taken from lists that compare. -/
structure Behind (A : Alignment) (t u : Token) (ts us : List Token) : Prop where
  before : A.states (t :: ts) (u :: us)
  after : A.states ts us

variable {t u : Token} {ts us : List Token}

/-- Tokens that were `Taken` were next before. -/
theorem Taken.front (h : A.Taken t u) : A.Front t u := by
  obtain ⟨ts, us, h⟩ := h
  exact ⟨t :: ts, u :: us, h, rfl, rfl⟩

theorem Behind.taken (h : A.Behind t u ts us) : A.Taken t u :=
  ⟨ts, us, h.before⟩

/-- Tokens that are next together, in `Front`, have one tag. -/
theorem Front.tag_eq (h : A.Front t u) : t.tag = u.tag := by
  obtain ⟨ts, us, hstates, rfl, rfl⟩ := h
  exact A.tag_eq hstates

theorem Front.text_eq (h : A.Front t u) : t.text = u.text := by
  obtain ⟨ts, us, hstates, rfl, rfl⟩ := h
  exact A.text_eq hstates

/-- Findings about tokens that are next together, in `Front`, compare. -/
theorem Front.entry (h : A.Front t u) (cause : GrammarCause) :
    A.entries ⟨cause, t.pos⟩ ⟨cause, u.pos⟩ := by
  obtain ⟨ts, us, hstates, rfl, rfl⟩ := h
  exact A.entry cause hstates

/-- Tokens that are next together, in `Front`, are the same keyword. -/
theorem Front.isKeyword_eq (h : A.Front t u) (words : List String) :
    t.isKeyword words = u.isKeyword words := by
  unfold Token.isKeyword
  rw [h.tag_eq, h.text_eq]

theorem front_next (h : A.states ts us) : A.Front (next ts) (next us) :=
  ⟨ts, us, h, rfl, rfl⟩

/-- Lists that compare end together. -/
theorem isEnd_eq (h : A.states ts us) : (next ts).isEnd = (next us).isEnd := by
  unfold Token.isEnd
  rw [A.tag_eq h]

/-- In lists that compare, `sees` finds the same tags. -/
theorem sees_eq (h : A.states ts us) (tags : List Tag) : sees tags ts = sees tags us := by
  unfold sees
  rw [A.isEnd_eq h, A.tag_eq h]

/-- Lists that compare and have a token in front that does not end the text begin with that
token. -/
theorem exists_behind (h : A.states ts us) (hend : (next ts).tag ≠ .eof) :
    ∃ ts' us', ts = next ts :: ts' ∧ us = next us :: us' ∧
      A.Behind (next ts) (next us) ts' us' := by
  have htail := A.tail h hend
  have hlength := A.length_eq h
  cases ts with
  | nil => exact absurd rfl hend
  | cons t ts =>
    cases us with
    | nil => simp at hlength
    | cons u us => exact ⟨ts, us, rfl, rfl, h, htail⟩

end Alignment

open Parser.Alignment

variable {A : Alignment}

/-! ### Single tokens -/

theorem relates_peek : A.Relates A.states (peek : Reader ε Token) peek A.Facing :=
  fun _ _ h => .ok .nil ⟨h, rfl, rfl⟩

theorem agrees_peek : A.Agrees (peek : Reader ε Token) peek A.Front :=
  fun _ _ h => .ok .nil ⟨front_next h, h⟩

theorem agrees_atEnd : A.Agrees (atEnd : Reader ε Bool) atEnd Eq :=
  fun _ _ h => .ok .nil ⟨isEnd_eq h, h⟩

theorem agrees_check (tag : Tag) : A.Agrees (check tag : Reader ε Bool) (check tag) Eq :=
  fun _ _ h => .ok .nil ⟨sees_eq h [tag], h⟩

/-- Tokens that face each other are skipped together by `skip`, unless they end the text. -/
theorem relates_skip {t u : Token} (ht : t.tag ≠ .eof) :
    A.Relates (A.Facing t u) (skip : Reader ε Unit) skip fun _ _ => A.Behind t u := by
  rintro ts us ⟨hstates, rfl, rfl⟩
  obtain ⟨ts', us', hts, hus, hbehind⟩ := exists_behind hstates ht
  have htail : ts.tail = ts' := by rw [hts, List.tail_cons]
  have htail' : us.tail = us' := by rw [hus, List.tail_cons]
  rw [skip_apply, skip_apply, htail, htail']
  exact .ok .nil hbehind

/-- What `accept` does on lists with `pre`: it takes a token from both or from none. -/
inductive Accepts (A : Alignment) (pre : List Token → List Token → Prop) (P : Token → Prop) :
    Option Token → Option Token → List Token → List Token → Prop where
  | some {t u : Token} {ts us : List Token} (before : pre (t :: ts) (u :: us))
    (taken : A.Behind t u ts us) (holds : P t) : Accepts A pre P (some t) (some u) ts us
  | none {ts us : List Token} (before : pre ts us) : Accepts A pre P none none ts us

/-- Wherever the next tokens do not end the text, they can be taken. -/
theorem accepts_next {pre : List Token → List Token → Prop} {P : Token → Prop} {ts us : List Token}
    (hts : pre ts us) (hstates : A.states ts us) (hend : (next ts).tag ≠ .eof) (hP : P (next ts)) :
    Accepts A pre P (some (next ts)) (some (next us)) ts.tail us.tail := by
  obtain ⟨ts', us', heq, heq', hbehind⟩ := exists_behind hstates hend
  have htail : ts.tail = ts' := by rw [heq, List.tail_cons]
  have htail' : us.tail = us' := by rw [heq', List.tail_cons]
  rw [htail, htail']
  rw [heq, heq'] at hts
  exact .some hts hbehind hP

/-- On both sides `accept` takes a token, or on none. -/
theorem relates_accept {pre : List Token → List Token → Prop} (tags : List Tag)
    (hpre : ∀ ts us, pre ts us → A.states ts us) :
    A.Relates pre (accept tags : Reader ε (Option Token)) (accept tags)
      (Accepts A pre fun t => t.tag ∈ tags) := by
  intro ts us hts
  have hstates := hpre ts us hts
  -- what is seen is the same, and so the branch
  have hsees := sees_eq hstates tags
  rw [accept_apply, accept_apply, ← hsees]
  by_cases h : sees tags ts = true
  · have htag : (next ts).tag ≠ .eof ∧ (next ts).tag ∈ tags := by
      simpa [sees, Token.isEnd] using h
    rw [if_pos h, if_pos h]
    exact .ok .nil (accepts_next hts hstates htag.1 htag.2)
  · rw [if_neg h, if_neg h]
    exact .ok .nil (.none hts)

theorem relates_acceptKeyword {pre : List Token → List Token → Prop} (words : List String)
    (hpre : ∀ ts us, pre ts us → A.states ts us) :
    A.Relates pre (acceptKeyword words : Reader ε (Option Token)) (acceptKeyword words)
      (Accepts A pre fun t => t.isKeyword words = true) := by
  intro ts us hts
  have hstates := hpre ts us hts
  have hkeyword := (front_next hstates).isKeyword_eq words
  rw [acceptKeyword_apply, acceptKeyword_apply, ← hkeyword]
  by_cases h : (next ts).isKeyword words = true
  · have htag : (next ts).tag ≠ .eof := by
      rw [(isKeyword_eq_true_iff.1 h).1]
      decide
    rw [if_pos h, if_pos h]
    exact .ok .nil (accepts_next hts hstates htag h)
  · rw [if_neg h, if_neg h]
    exact .ok .nil (.none hts)

/-- `failAt` tokens that are next together `Agrees`. -/
theorem agrees_failAt {V : α → α → Prop} {t u : Token} (h : A.Front t u) (cause : GrammarCause) :
    A.Agrees (failAt cause t : Parser α) (failAt cause u) V :=
  (agrees_write (h.entry cause)).bind fun _ _ _ => agrees_fail cause

/-- `failAt` the next token, wherever the two lists compare. -/
theorem relates_failNext {pre : List Token → List Token → Prop}
    {post : α → α → List Token → List Token → Prop} (hpre : ∀ ts us, pre ts us → A.states ts us)
    (cause : GrammarCause) :
    A.Relates pre (do failAt cause (← peek) : Parser α) (do failAt cause (← peek)) post := by
  have hfail : A.Agrees (do failAt cause (← peek) : Parser α) (do failAt cause (← peek))
      fun _ _ => False :=
    agrees_peek.bind fun t u h => agrees_failAt h cause
  exact hfail.mono hpre fun _ _ _ _ h => h.1.elim

/-- `expect` takes a token on both sides, or misses it on both. -/
theorem relates_expect {pre : List Token → List Token → Prop} (tag : Tag) (cause : GrammarCause)
    (hpre : ∀ ts us, pre ts us → A.states ts us) :
    A.Relates pre (expect tag cause) (expect tag cause)
      fun t u ts us => pre (t :: ts) (u :: us) ∧ A.Behind t u ts us ∧ t.tag = tag := by
  refine (relates_accept [tag] hpre).bind fun t? u? ts us h => ?_
  cases h with
  | some before taken holds => exact .ok .nil ⟨before, taken, List.mem_singleton.1 holds⟩
  | none before => exact relates_failNext hpre cause ts us before

theorem relates_expectKeyword {pre : List Token → List Token → Prop} (words : List String)
    (cause : GrammarCause) (hpre : ∀ ts us, pre ts us → A.states ts us) :
    A.Relates pre (expectKeyword words cause) (expectKeyword words cause)
      fun t u ts us => pre (t :: ts) (u :: us) ∧ A.Behind t u ts us ∧ t.isKeyword words = true := by
  refine (relates_acceptKeyword words hpre).bind fun t? u? ts us h => ?_
  cases h with
  | some before taken holds => exact .ok .nil ⟨before, taken, holds⟩
  | none before => exact relates_failNext hpre cause ts us before

/-- What is accepted was `Taken` from lists that compare. -/
theorem agrees_accept (tags : List Tag) :
    A.Agrees (accept tags : Reader ε (Option Token)) (accept tags)
      (Option.Rel fun t u => A.Taken t u ∧ t.tag ∈ tags) := by
  refine (relates_accept tags fun _ _ => id).mono (fun _ _ => id) fun t? u? ts us h => ?_
  cases h with
  | some _ taken holds => exact ⟨.some ⟨taken.taken, holds⟩, taken.after⟩
  | none before => exact ⟨.none, before⟩

theorem agrees_acceptKeyword (words : List String) :
    A.Agrees (acceptKeyword words : Reader ε (Option Token)) (acceptKeyword words)
      (Option.Rel A.Taken) := by
  refine (relates_acceptKeyword words fun _ _ => id).mono (fun _ _ => id) fun t? u? ts us h => ?_
  cases h with
  | some _ taken _ => exact ⟨.some taken.taken, taken.after⟩
  | none before => exact ⟨.none, before⟩

theorem agrees_expect (tag : Tag) (cause : GrammarCause) :
    A.Agrees (expect tag cause) (expect tag cause) A.Taken :=
  (relates_expect tag cause fun _ _ => id).mono (fun _ _ => id)
    fun _ _ _ _ h => ⟨h.2.1.taken, h.2.1.after⟩

/-! ### Combinators -/

/-- Parsers for what stands one level further in, if there is room for it. -/
def Inner (A : Alignment) (V : α → α → Prop) (inner : Option (Parser α)) : Prop :=
  ∀ p, inner = some p → A.Agrees p p V

/-- A `Construct` is too deep on both sides, or its insides agree. -/
theorem agrees_nested {what : Construct} {V : α → α → Prop} {W : β → β → Prop}
    {inner : Option (Parser α)} {opening opening' : Token} {body : Parser α → Parser β}
    (hinner : Inner A V inner) (hopening : A.Front opening opening')
    (hbody : ∀ p, A.Agrees p p V → A.Agrees (body p) (body p) W) :
    A.Agrees (nested what inner opening body) (nested what inner opening' body) W := by
  cases inner with
  | none => exact agrees_failAt hopening _
  | some p => exact hbody p (hinner p rfl)

/-- A `loop` makes the same steps on both sides, and the values it carries stay related. -/
theorem agrees_loop {V : α → α → Prop} {step step' : α → Reader ε (Option α)}
    (hstep : ∀ a b, V a b → A.Agrees (step a) (step' b) (Option.Rel V)) {a b : α} (hab : V a b) :
    A.Agrees (loop step a) (loop step' b) V := by
  -- the room of a loop is the list it begins with, so that both loops have the same
  suffices h : ∀ (room room' : List Token), room.length = room'.length → ∀ a b, V a b →
      ∀ ts us, A.states ts us → ∀ log log', List.Forall₂ A.entries log log' →
        A.Ends (fun a b ts us => V a b ∧ A.states ts us) (loopFrom step room a ts log)
          (loopFrom step' room' b us log') from
    fun ts us hts => h ts us (A.length_eq hts) a b hab ts us hts [] [] .nil
  intro room
  induction room with
  | nil =>
    intro room' hroom a b hab ts us hts log log' hlog
    obtain rfl : room' = [] := by simpa using hroom.symm
    exact .ok (List.rel_reverse hlog) ⟨hab, hts⟩
  | cons t room ih =>
    intro room' hroom a b hab ts us hts log log' hlog
    obtain ⟨t', room', rfl⟩ := List.exists_cons_of_length_eq_add_one hroom.symm
    -- one step on each side: both fail, both stop, or both go on with values that are related again
    have hends := hstep a b hab ts us hts
    unfold loopFrom
    generalize step a ts = r at hends ⊢
    generalize step' b us = r' at hends ⊢
    cases hends with
    | error logs states =>
      exact .error (List.rel_reverse (List.rel_append (List.rel_reverse logs) hlog)) states
    | @ok a? b? new new' rest rest' logs values =>
      have hnew := List.rel_append (List.rel_reverse logs) hlog
      obtain ⟨hvalues, hrest⟩ := values
      cases hvalues with
      | none => exact .ok (List.rel_reverse hnew) ⟨hab, hrest⟩
      | some hab' => exact ih room' (Nat.succ.inj hroom) _ _ hab' rest rest' hrest _ _ hnew

/-- `many` agrees if the items do: as many are found, and they compare one by one. -/
theorem agrees_many {V : α → α → Prop} {item item' : Reader ε (Option α)}
    (hitem : A.Agrees item item' (Option.Rel V)) :
    A.Agrees (many item) (many item') (List.Forall₂ V) := by
  -- what has been collected so far compares one by one
  have hstep : ∀ found found', List.Forall₂ V found found' →
      A.Agrees (collect item found) (collect item' found') (Option.Rel (List.Forall₂ V)) := by
    intro found found' hfound
    refine hitem.bind fun a? b? hab => ?_
    cases hab with
    | none => exact agrees_pure .none
    | some hab => exact agrees_pure (.some (.cons hab hfound))
  exact (agrees_loop hstep .nil).bind fun found found' hfound =>
    agrees_pure (List.rel_reverse hfound)

theorem agrees_some {V : α → α → Prop} {p p' : Reader ε α} (h : A.Agrees p p' V) :
    A.Agrees (some <$> p) (some <$> p') (Option.Rel V) :=
  h.map fun _ _ hab => .some hab

/-- What follows a token `Agrees` if it does so behind tokens that were `Taken` together. -/
theorem agrees_behind {V : α → α → Prop} {tags : List Tag} {further further' : Token → Parser α}
    (h : ∀ t u, A.Taken t u → t.tag ∈ tags → A.Agrees (further t) (further' u) V) :
    A.Agrees (behind tags further) (behind tags further') (Option.Rel V) := by
  refine (agrees_accept tags).bind fun t? u? htu => ?_
  cases htu with
  | none => exact agrees_pure .none
  | some htu => exact agrees_some (h _ _ htu.1 htu.2)

theorem agrees_commaSeparated {V : α → α → Prop} {item : Parser α} (hitem : A.Agrees item item V) :
    A.Agrees (commaSeparated item) (commaSeparated item) (List.Forall₂ V) :=
  hitem.bind fun _ _ hfirst => (agrees_many (agrees_behind fun _ _ _ _ => hitem)).bind
    fun _ _ hrest => agrees_pure (.cons hfirst hrest)

theorem agrees_listed {V : α → α → Prop} {item : Parser α} (hitem : A.Agrees item item V) :
    A.Agrees (listed item) (listed item) (List.Forall₂ V) := by
  refine (agrees_check _).bind fun b b' hb => ?_
  subst hb
  cases b with
  | true => exact agrees_pure .nil
  | false => exact agrees_commaSeparated hitem

/-! ### Recovery -/

/-- `skipFrom` stops at the same token in lists that compare. -/
theorem skipFrom_aligned {last last' : Token} (hlast : last.tag = last'.tag) {ts us : List Token}
    (h : A.states ts us) : A.states (skipFrom last ts) (skipFrom last' us) := by
  induction ts generalizing last last' us with
  | nil =>
    obtain rfl : us = [] := by simpa using (A.length_eq h).symm
    exact h
  | cons t ts ih =>
    obtain ⟨u, us, rfl⟩ := List.exists_cons_of_length_eq_add_one (A.length_eq h).symm
    have hfront : A.Front t u := front_next h
    have hend : t.isEnd = u.isEnd := A.isEnd_eq h
    -- whether to stop here is a matter of tags and texts
    have hkeyword := hfront.isKeyword_eq recoveryWords
    unfold skipFrom
    rw [← hend, ← hkeyword, ← hlast]
    by_cases hstop : (t.isEnd || last.tag == .semicolon || t.isKeyword recoveryWords) = true
    · rw [if_pos hstop, if_pos hstop]
      exact h
    · rw [if_neg hstop, if_neg hstop]
      have htag : t.tag ≠ .eof := by
        intro htag
        simp [Token.isEnd, htag] at hstop
      exact ih hfront.tag_eq (A.tail h htag)

/-- With `synchronize` both sides resume at the same token. -/
theorem agrees_synchronize :
    A.Agrees (synchronize : Reader ε Unit) synchronize fun _ _ => True := by
  intro ts us h
  suffices hrecovered : A.states (recovered ts) (recovered us) from .ok .nil ⟨trivial, hrecovered⟩
  cases ts with
  | nil =>
    obtain rfl : us = [] := by simpa using (A.length_eq h).symm
    exact h
  | cons t ts =>
    obtain ⟨u, us, rfl⟩ := List.exists_cons_of_length_eq_add_one (A.length_eq h).symm
    have hend : t.isEnd = u.isEnd := A.isEnd_eq h
    show A.states (if t.isEnd then t :: ts else skipFrom t ts)
      (if u.isEnd then u :: us else skipFrom u us)
    rw [← hend]
    -- at the end nothing is skipped
    by_cases hstop : t.isEnd = true
    · rw [if_pos hstop, if_pos hstop]
      exact h
    · rw [if_neg hstop, if_neg hstop]
      have htag : t.tag ≠ .eof := by simpa [Token.isEnd] using hstop
      exact skipFrom_aligned (A.tag_eq h) (A.tail h htag)

/-- With `recovering`, recovery starts on both sides, or on none. -/
theorem agrees_recovering {V : α → α → Prop} {raise : Empty → ε} {p : Parser (Option α)}
    (h : A.Agrees p p (Option.Rel V)) :
    A.Agrees (recovering raise p : Reader ε (Option α)) (recovering raise p) (Option.Rel V) := by
  intro ts us hts
  have hends := h ts us hts
  unfold recovering
  cases hr : p ts with
  | mk value log rest =>
    cases hr' : p us with
    | mk value' log' rest' =>
      rw [hr, hr'] at hends
      have hattempt : (attempt p : Reader ε _) ts = ⟨.ok value, log, rest⟩ := by rw [attempt, hr]
      have hattempt' : (attempt p : Reader ε _) us = ⟨.ok value', log', rest'⟩ := by
        rw [attempt, hr']
      rw [bind_of_ok hattempt, bind_of_ok hattempt']
      cases hends with
      | ok logs values => exact .ok (List.rel_append logs .nil) values
      | error logs states =>
        -- both runs skip to the next place where parsing can go on
        have hsync : A.Agrees (do synchronize; pure none : Reader ε (Option α))
            (do synchronize; pure none) (Option.Rel V) :=
          agrees_synchronize.bind fun _ _ _ => agrees_pure .none
        have hrest := hsync rest rest' states
        simp only [fatal_list]
        generalize (do synchronize; pure none : Reader ε (Option α)) rest = q at hrest ⊢
        generalize (do synchronize; pure none : Reader ε (Option α)) rest' = q' at hrest ⊢
        cases hrest with
        | ok logs' values => exact .ok (List.rel_append logs logs') values
        | error logs' states' => exact .error (List.rel_append logs logs') states'

end Parser

end Tricode
