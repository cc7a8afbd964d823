import Tricode.Program.Parser
import Tricode.Proofs.Parser.Plain

/-!
# Parsers fail aloud

No parser fails without a finding, and the last thing it has found is why it fails
(`explains_statement`, `explains_function`). A statement or a function that was given up therefore
shows in the findings, and a parser that recovers from failures and has found nothing wrong has not
met any (`recovering_yields_iff`).
-/

namespace Tricode

namespace Parser

open Pass

variable {α β ε : Type}

/-- The finding has this cause. -/
def Blames (cause : GrammarCause) (f : Finding GrammarCause) : Prop :=
  f.cause = cause

/-! ### Primitives -/

section

variable {R : ε → Finding GrammarCause → Prop}

theorem explains_peek : (peek : Reader ε Token).Explains R :=
  explains_of_ok fun _ => ⟨_, rfl⟩

theorem explains_atEnd : (atEnd : Reader ε Bool).Explains R :=
  explains_of_ok fun _ => ⟨_, rfl⟩

theorem explains_check (tag : Tag) : (check tag : Reader ε Bool).Explains R :=
  explains_of_ok fun _ => ⟨_, rfl⟩

theorem explains_skip : (skip : Reader ε Unit).Explains R :=
  explains_of_ok fun _ => ⟨_, rfl⟩

theorem explains_accept (tags : List Tag) : (accept tags : Reader ε (Option Token)).Explains R := by
  refine explains_of_ok fun ts => ?_
  by_cases h : sees tags ts = true
  · exact ⟨some (next ts), by simp [accept, h]⟩
  · exact ⟨none, by simp [accept, h]⟩

theorem explains_acceptKeyword (words : List String) :
    (acceptKeyword words : Reader ε (Option Token)).Explains R := by
  refine explains_of_ok fun ts => ?_
  by_cases h : (next ts).isKeyword words = true
  · exact ⟨some (next ts), by simp [acceptKeyword, h]⟩
  · exact ⟨none, by simp [acceptKeyword, h]⟩

/-- A `loop` fails with the failure of a step, whose entry is the last one. -/
theorem explains_loop {step : α → Reader ε (Option α)} (hstep : ∀ a, (step a).Explains R) (a : α) :
    (loop step a).Explains R := by
  suffices h : ∀ room a ts log e, (loopFrom step room a ts log).value = .error e →
      ∃ log' entry, (loopFrom step room a ts log).log = log' ++ [entry] ∧ R e entry from
    fun ts e => h ts a ts [] e
  intro room
  -- by induction on the room, for any entries that are there already
  induction room with
  | nil =>
    intro a ts log e he
    simp [loopFrom] at he
  | cons t room ih =>
    intro a ts log e he
    simp only [loopFrom] at he ⊢
    split at he
    · next a' new rest hs => exact ih a' rest _ e he
    · simp at he
    · next e' new rest hs =>
      cases he
      obtain ⟨new', entry, hnew, hR⟩ := hstep a ts e (by rw [hs])
      rw [hs] at hnew
      refine ⟨log.reverse ++ new', entry, ?_, hR⟩
      rw [List.reverse_append, List.reverse_reverse, List.append_assoc, ← hnew]

theorem explains_many {item : Reader ε (Option α)} (hitem : item.Explains R) :
    (many item).Explains R := by
  refine (explains_loop (fun found => hitem.bind fun a? => ?_) []).bind fun found => explains_pure _
  cases a? with
  | none => exact explains_pure _
  | some a => exact explains_pure _

/-- `recovering` does not fail. -/
theorem explains_recovering {raise : Empty → ε} (p : Parser (Option α)) :
    (recovering raise p : Reader ε (Option α)).Explains R := by
  refine (explains_of_ok fun ts => ⟨(p ts).value, rfl⟩).bind fun value => ?_
  cases value with
  | ok a => exact explains_pure a
  | error e => exact (explains_of_ok fun ts => ⟨(), rfl⟩).bind fun _ => explains_pure none

end

/-- A failure `Blames` its cause. -/
theorem explains_failAt (cause : GrammarCause) (t : Token) :
    (failAt cause t : Parser α).Explains Blames := by
  intro ts e he
  cases he
  exact ⟨[], ⟨cause, t.pos⟩, rfl, rfl⟩

theorem explains_expect (tag : Tag) (cause : GrammarCause) :
    (expect tag cause : Parser Token).Explains Blames := by
  refine (explains_accept _).bind fun t? => ?_
  cases t? with
  | none => exact explains_peek.bind fun t => explains_failAt cause t
  | some t => exact explains_pure t

theorem explains_expectKeyword (words : List String) (cause : GrammarCause) :
    (expectKeyword words cause : Parser Token).Explains Blames := by
  refine (explains_acceptKeyword _).bind fun t? => ?_
  cases t? with
  | none => exact explains_peek.bind fun t => explains_failAt cause t
  | some t => exact explains_pure t

theorem explains_nested {what : Construct} {inner : Option (Parser α)} {opening : Token}
    {body : Parser α → Parser β} (h : ∀ p, inner = some p → (body p).Explains Blames) :
    (nested what inner opening body).Explains Blames := by
  cases inner with
  | none => exact explains_failAt _ opening
  | some p => exact h p rfl

theorem explains_listed {item : Parser α} (hitem : item.Explains Blames) :
    (listed item).Explains Blames := by
  refine (explains_check _).bind fun b => ?_
  cases b with
  | true => exact explains_pure _
  | false =>
    refine hitem.bind fun first => (explains_many ?_).bind fun rest => explains_pure _
    refine (explains_accept _).bind fun t? => ?_
    cases t? with
    | none => exact explains_pure _
    | some t => exact hitem.map some

/-! ### Statements and functions -/

/-- An `expression` that fails has reported its cause last. -/
theorem explains_expression (room : Nat) : (expression room : Parser Measured).Explains Blames := by
  intro ts e he
  obtain ⟨pos, hlog⟩ := (plain_expression room ts).reports e he
  exact ⟨[], ⟨e, pos⟩, hlog, rfl⟩

theorem explains_declaration (room : Nat) (type : Token) :
    (declaration room type : Parser Stmt).Explains Blames := by
  refine (explains_expect _ _).bind fun name => (explains_accept _).bind fun t? => ?_
  cases t? with
  | none =>
    exact (explains_pure _).bind fun _ => (explains_expect _ _).bind fun _ => explains_pure _
  | some sign =>
    exact (explains_expression room).bind fun _ => (explains_pure _).bind fun _ =>
      (explains_expect _ _).bind fun _ => explains_pure _

theorem explains_conditional (room : Nat) {block : Parser Block} (h : block.Explains Blames)
    (word : Token) : (conditional room block word).Explains Blames := by
  refine (explains_expect _ _).bind fun _ => (explains_expression room).bind fun cond =>
    (explains_expect _ _).bind fun _ => h.bind fun body =>
    (explains_acceptKeyword _).bind fun t? => ?_
  cases t? with
  | none => exact explains_pure _
  | some other => exact h.bind fun _ => explains_pure _

theorem explains_whileLoop (room : Nat) {block : Parser Block} (h : block.Explains Blames)
    (word : Token) : (whileLoop room block word).Explains Blames :=
  (explains_expect _ _).bind fun _ => (explains_expression room).bind fun _ =>
    (explains_expect _ _).bind fun _ => h.bind fun _ => explains_pure _

theorem explains_returnStatement (room : Nat) (word : Token) :
    (returnStatement room word : Parser Stmt).Explains Blames := by
  refine (explains_check _).bind fun b => ?_
  cases b with
  | true =>
    exact (explains_pure _).bind fun _ => (explains_expect _ _).bind fun _ => explains_pure _
  | false =>
    exact (explains_expression room).bind fun _ => (explains_pure _).bind fun _ =>
      (explains_expect _ _).bind fun _ => explains_pure _

theorem explains_statementWith (room : Nat) {block : Parser Block} (h : block.Explains Blames) :
    (statementWith room block).Explains Blames := by
  refine explains_peek.bind fun t => ?_
  split
  · refine explains_skip.bind fun _ => ?_
    split
    · exact (explains_declaration room t).map some
    split
    · exact (explains_conditional room h t).map some
    split
    · exact (explains_whileLoop room h t).map some
    split
    · exact (explains_returnStatement room t).map some
    · exact (explains_of_ok fun _ => ⟨(), rfl⟩).bind fun _ => explains_pure _
  · exact (explains_expression room).bind fun e => (explains_expect _ _).bind fun _ =>
      explains_pure _

theorem explains_blockItem (p : Parser (Option Stmt)) : (blockItem p).Explains Blames := by
  refine (explains_check _).bind fun b => explains_atEnd.bind fun b' => ?_
  split
  · exact explains_pure _
  · exact (explains_recovering p).map some

/-- `blockWith` fails at one of its braces, and statements in it never make it fail. -/
theorem explains_blockWith (statement : Option (Parser (Option Stmt))) :
    (blockWith statement).Explains Blames :=
  (explains_expect _ _).bind fun _ =>
    (explains_nested fun p _ => explains_many (explains_blockItem p)).bind fun _ =>
      (explains_expect _ _).bind fun _ => explains_pure _

theorem explains_statement (room : Nat) :
    (statement room : Parser (Option Stmt)).Explains Blames := by
  rw [statement_eq]
  exact explains_statementWith room (explains_blockWith _)

theorem reports_statement (room : Nat) : (statement room : Parser (Option Stmt)).Reports :=
  (explains_statement room).reports

theorem explains_parameter : (parameter : Parser Param).Explains Blames :=
  (explains_expectKeyword _ _).bind fun _ => (explains_expect _ _).bind fun _ => explains_pure _

theorem explains_function (room : Nat) : (function room : Parser Function).Explains Blames :=
  (explains_expectKeyword _ _).bind fun _ => (explains_expect _ _).bind fun _ =>
    (explains_expect _ _).bind fun _ => (explains_listed explains_parameter).bind fun _ =>
      (explains_expect _ _).bind fun _ => (explains_blockWith _).bind fun _ => explains_pure _

/-! ### Recovery -/

/-- `recovering` has found nothing wrong exactly if there was no failure. -/
theorem recovering_yields_iff {raise : Empty → ε} {p : Parser (Option α)} (hp : p.Reports)
    {ts rest : List Token} {a : Option α} :
    (recovering raise p : Reader ε (Option α)).Yields ts a rest ↔ p.Yields ts a rest := by
  constructor
  · intro h
    obtain ⟨value, mid, hattempt, hrest⟩ := yields_bind_iff.1 h
    have hparts : (p ts).value = value ∧ (p ts).log = [] ∧ (p ts).state = mid := by
      simpa [Yields, attempt] using hattempt
    obtain ⟨hvalue, hlog, hstate⟩ := hparts
    -- a failure would have been reported
    cases value with
    | error e => exact absurd hlog (hp ts e hvalue)
    | ok a' =>
      obtain ⟨rfl, rfl⟩ := yields_pure_iff.1 hrest
      exact Outcome.eq_mk hvalue hlog hstate
  · intro h
    have hattempt : (attempt p : Reader ε _).Yields ts (.ok a) rest := by
      rw [Yields] at h
      simp [Yields, attempt, h]
    exact yields_bind_iff.2 ⟨.ok a, rest, hattempt, rfl⟩

end Parser

end Tricode
