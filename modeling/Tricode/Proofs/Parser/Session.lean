import Tricode.Proofs.Parser.Locality

/-!
# A parser between two calls

A session keeps its parser in order. Whatever has been called before, a call brings the counter of
levels back to where it was, goes forward without passing the end, and adds its findings behind the
others; it does so whether it succeeds, fails, or runs out of stack (`Session.Consistent`). What it
says for itself depends on its level (`Level.Honoured`): a call about tokens or an expression is
either silent or fails with one finding, a statement or a function that fails has said last why, and
a program does not fail.

A session never goes back, so what is left is what follows tokens in front of the end
(`Session.InFront`). This is all that the calls rely on. That the counter comes back is what
`Counts` says of every parser, and with it a call is followed on the bare tokens
(`Session.runBare`), unless the stack ends before the limit: this takes a counter that began below
zero, since the limit keeps the others within `maxNesting` levels.
-/

namespace Tricode

namespace Parser

open Pass

variable {α ε : Type}

/-! ### Levels of calls -/

/-- The rest of a construct, behind a token of it that has been taken. -/
inductive Remainder where
  | declaration (type : Token)
  | conditional (word : Token)
  | whileLoop (word : Token)
  | returnStatement (word : Token)
  | arguments (callee : Measured) (paren : Token)

/-- All that can be asked of a session: the calls, and the rests of constructs. -/
inductive Request where
  | call (c : Call)
  | finish (r : Remainder)

/-- What a request is about. -/
inductive Level where
  | token
  | expression
  /-- A statement, a block, the parameters of a function, or a function. -/
  | construct
  | program

/-- The level of a request. -/
def Request.level : Request → Level
  | call .program => .program
  | call .function | call .parameters | call .block | call .statement => .construct
  | call .expression | call .assignment | call (.binary _) | call .unary | call .call
  | call .primary =>
    .expression
  | call _ => .token
  | finish (.arguments ..) => .expression
  | finish _ => .construct

namespace Session

/-- Parses the rest of a construct on a stack that holds this number of levels. -/
def finishWithin (s : Session) (stack : Nat) : Remainder → Except Refusal Answer × Session
  | .declaration type => s.run (Parser.declaration stack type) fun stmt => .node stmt.toNode
  | .conditional word =>
    s.run (Parser.conditional stack (Parser.block stack) word) fun stmt => .node stmt.toNode
  | .whileLoop word =>
    s.run (Parser.whileLoop stack (Parser.block stack) word) fun stmt => .node stmt.toNode
  | .returnStatement word => s.run (Parser.returnStatement stack word) fun stmt => .node stmt.toNode
  | .arguments callee paren => s.runExpr (Parser.arguments (inside stack) callee paren)

/-- Answers a request on a stack that holds this number of levels. -/
def answerWithin (s : Session) (stack : Nat) : Request → Except Refusal Answer × Session
  | .call c => s.callWithin stack c
  | .finish r => s.finishWithin stack r

/-- Answers a request on a stack that holds all levels below the limit. -/
def answer (s : Session) (r : Request) : Except Refusal Answer × Session :=
  s.answerWithin s.room r

/-- A session that was started with the tokens and the counter has come here by requests, in any
order, on any stack and with any answers. Findings may have been put in by hand as well. -/
inductive Reached (tokens : List Token) (nesting : Int) : Session → Prop where
  | start : Reached tokens nesting (Session.start tokens nesting)
  | answer {s : Session} (stack : Nat) (r : Request) (earlier : Reached tokens nesting s) :
    Reached tokens nesting (s.answerWithin stack r).2
  | report {s : Session} (f : Finding GrammarCause) (earlier : Reached tokens nesting s) :
    Reached tokens nesting { s with findings := s.findings ++ [f] }

/-- From the session `s` the parser has gone forward to `s'`, but not past the end, and has made the
new findings. Everything else is as it was. -/
structure Consistent (s : Session) (new : List (Finding GrammarCause)) (s' : Session) : Prop where
  tokens : s'.tokens = s.tokens
  nesting : s'.nesting = s.nesting
  forward : s.position ≤ s'.position
  inFront : s'.position ≤ endOf s.tokens
  findings : s'.findings = s.findings ++ new

end Session

/-- What an answer of a level says for itself. A call about tokens makes no finding, except that it
makes one if it fails, which is the failure; only where there is no token at all, it may fail
without one. An expression that is found has read a token without a finding, and one that is not
found has made one finding, which is the failure. A construct that is not found has made the failure
its last finding. A program is always found. -/
def Level.Honoured (s : Session) (new : List (Finding GrammarCause))
    (r : Except Refusal Answer × Session) : Level → Prop
  | token =>
    (∀ a, r.1 = .ok a → new = []) ∧
      ∀ e, r.1 = .error e →
        e = .noToken ∧ s.tokens = [] ∧ new = [] ∨ ∃ f, e = .failed f.cause ∧ new = [f]
  | expression =>
    (∀ a, r.1 = .ok a → new = [] ∧ s.position < r.2.position) ∧
      ∀ e, r.1 = .error e → ∃ f, e = .failed f.cause ∧ new = [f]
  | construct => ∀ e, r.1 = .error e → ∃ before f, e = .failed f.cause ∧ new = before ++ [f]
  | program => ∃ a, r.1 = .ok a

/-! ### Going forward -/

/-- Tokens in front of the end lie in front of `endOf`. -/
theorem length_le_endOf {w ts : List Token} (hw : ∀ t ∈ w, t.isEnd = false) :
    w.length ≤ endOf (w ++ ts) := by
  have hnone : w.findIdx Token.isEnd = w.length := List.findIdx_eq_length.2 hw
  rw [endOf, List.findIdx_append, hnone, if_neg (Nat.lt_irrefl _)]
  exact Nat.le_add_left _ _

/-! ### Runs with at most one finding -/

/-- The run logs nothing if it succeeds, and if it fails, its failure and nothing else. -/
def Terse (p : Parser α) (ts : List Token) : Prop :=
  (∃ a, (p ts).value = .ok a ∧ (p ts).log = []) ∨
    ∃ found, (p ts).value = .error found.cause ∧ (p ts).log = [found]

/-- A `Plain` parser is `Terse`. -/
theorem Plain.terse {p : Parser α} {ts : List Token} (h : Plain p ts) : Terse p ts := by
  cases hvalue : (p ts).value with
  | ok a => exact .inl ⟨a, hvalue, h.silent a hvalue⟩
  | error e =>
    obtain ⟨pos, hlog⟩ := h.reports e hvalue
    exact .inr ⟨⟨e, pos⟩, hvalue, hlog⟩

section

variable {kind : Token → Bool} {p : Parser (Option Token)}

/-- Picking a token is `Terse`. -/
theorem Picks.terse (h : Picks kind p) (ts : List Token) : Terse p ts := by
  rw [Terse, h.apply]
  split
  · exact .inl ⟨_, rfl, rfl⟩
  · exact .inl ⟨_, rfl, rfl⟩

/-- A parser `Picks` a token, or the next token is to blame. -/
theorem Picks.terse_bind (h : Picks kind p) {f : Option Token → Parser Token} {cause : GrammarCause}
    (hsome : ∀ t, f (some t) = pure t)
    (hnone : ∀ ts, f none ts = ⟨.error cause, [⟨cause, (next ts).pos⟩], ts⟩) (ts : List Token) :
    Terse (p >>= f) ts := by
  by_cases hts : kind (next ts) = true
  · have hp : p ts = ⟨.ok (some (next ts)), [], ts.tail⟩ := by rw [h.apply, if_pos hts]
    rw [Terse, bind_of_ok hp, hsome]
    exact .inl ⟨next ts, rfl, rfl⟩
  · have hp : p ts = ⟨.ok none, [], ts⟩ := by rw [h.apply, if_neg hts]
    rw [Terse, bind_of_ok hp, hnone]
    exact .inr ⟨_, rfl, rfl⟩

end

theorem terse_expect (tag : Tag) (cause : GrammarCause) (ts : List Token) :
    Terse (expect tag cause) ts :=
  (picks_accept [tag]).terse_bind (fun _ => rfl) (fun _ => rfl) ts

theorem terse_expectKeyword (words : List String) (cause : GrammarCause) (ts : List Token) :
    Terse (expectKeyword words cause) ts :=
  (picks_acceptKeyword words).terse_bind (fun _ => rfl) (fun _ => rfl) ts

namespace Session

/-- What has been read are tokens in front of the end. -/
def InFront (s : Session) : Prop :=
  ∃ w, s.tokens = w ++ s.rest ∧ ∀ t ∈ w, t.isEnd = false

/-- The `Session` stands behind the tokens that have been read. -/
theorem position_eq {s : Session} {w : List Token} (h : s.tokens = w ++ s.rest) :
    s.position = w.length := by
  rw [position, h, List.length_append]
  omega

/-- A session stays `InFront` where tokens in front of the end have been taken. -/
theorem InFront.advance {s : Session} (hs : s.InFront) (s' : Session) (v : List Token)
    {new : List (Finding GrammarCause)} (hrest : s.rest = v ++ s'.rest)
    (hv : ∀ t ∈ v, t.isEnd = false)
    (htokens : s'.tokens = s.tokens) (hnesting : s'.nesting = s.nesting)
    (hfindings : s'.findings = s.findings ++ new) : s'.InFront ∧ s.Consistent new s' := by
  obtain ⟨w, hw, hend⟩ := hs
  have hread : ∀ t ∈ w ++ v, t.isEnd = false := List.forall_mem_append.2 ⟨hend, hv⟩
  -- all that was read before and now lies in front of the end
  have hw' : s.tokens = (w ++ v) ++ s'.rest := by rw [hw, hrest, List.append_assoc]
  have hposition : s'.position = (w ++ v).length := position_eq (htokens.trans hw')
  refine ⟨⟨w ++ v, htokens.trans hw', hread⟩, htokens, hnesting, ?_, ?_, hfindings⟩
  · rw [position_eq hw, hposition, List.length_append]
    exact Nat.le_add_right _ _
  · rw [hposition, hw']
    exact length_le_endOf hread

/-- A run that `Counts` leaves the `Session` in order, also where it overflows. -/
theorem InFront.after {s : Session} (hs : s.InFront) {fits : Prop}
    {p : Reading Cursor (Failure ε) α} {q : Reader ε α} (h : Counts fits s.nesting p q s.rest) :
    (s.after (p s.cursor)).InFront ∧ s.Consistent (p s.cursor).log (s.after (p s.cursor)) := by
  obtain ⟨⟨v, hrest, hv⟩, hnesting⟩ := h.state
  exact hs.advance _ v hrest hv rfl hnesting rfl

/-- The `position` moves on where a token has been taken. -/
theorem InFront.position_lt {s : Session} (hs : s.InFront) {rest : List Token}
    (h : rest.length < s.rest.length) :
    s.position < ({ s with rest := rest } : Session).position := by
  obtain ⟨w, hw, -⟩ := hs
  have hlength := congrArg List.length hw
  rw [List.length_append] at hlength
  show s.tokens.length - s.rest.length < s.tokens.length - rest.length
  omega

/-! ### Answers by level -/

/-- The answer leaves the session in order, and unless the stack is used up, it says for itself what
its level asks for. -/
def InOrder (s : Session) (stack : Nat) (level : Level) (r : Except Refusal Answer × Session) :
    Prop :=
  r.2.InFront ∧ ∃ new, s.Consistent new r.2 ∧ (r.1 ≠ .error .overflow → level.Honoured s new r) ∧
    (r.1 = .error .overflow → stack < s.room)

/-- Runs a reader from where the session stands on the bare tokens. -/
def runBare (s : Session) (refuse : ε → Refusal) (q : Reader ε α) (answer : α → Answer) :
    Except Refusal Answer × Session :=
  let r := q s.rest
  ((r.value.map answer).mapError refuse,
    { s with rest := r.state, findings := s.findings ++ r.log })

/-- `runWith` comes to the same as `runBare`, on the bare tokens, unless it overflows. -/
theorem runWith_eq_runBare {s : Session} {fits : Prop} {p : Reading Cursor (Failure ε) α}
    {q : Reader ε α}
    (h : Counts fits s.nesting p q s.rest) (refuse : ε → Refusal) (f : α → Answer) :
    s.runWith refuse p f = s.runBare refuse q f ∧ (p s.cursor).log = (q s.rest).log ∨
      (s.runWith refuse p f).1 = .error .overflow ∧ ¬ fits := by
  unfold runWith runBare after
  unfold Counts at h
  rw [cursor]
  generalize p ⟨s.rest, s.nesting⟩ = r at h ⊢
  generalize q s.rest = r' at h ⊢
  -- both runs end alike, unless the one with the counter overflows
  cases h with
  | ok forward => exact .inl ⟨rfl, rfl⟩
  | error forward => exact .inl ⟨rfl, rfl⟩
  | overflow forward short => exact .inr ⟨rfl, short⟩

section

variable {s : Session} {refuse : ε → Refusal} {q : Reader ε α} {f : α → Answer}

/-- `runBare` answers with what is made of the value that was read. -/
theorem fst_runBare_eq_ok_iff {a : Answer} :
    (s.runBare refuse q f).1 = .ok a ↔ ∃ b, (q s.rest).value = .ok b ∧ f b = a := by
  rw [runBare]
  cases (q s.rest).value <;> simp [Except.map, Except.mapError]

/-- `runBare` refuses for the failure of the run. -/
theorem fst_runBare_eq_error_iff {e : Refusal} :
    (s.runBare refuse q f).1 = .error e ↔ ∃ c, (q s.rest).value = .error c ∧ refuse c = e := by
  rw [runBare]
  cases (q s.rest).value <;> simp [Except.map, Except.mapError]

/-- `runBare` does not refuse for lack of stack, if no cause does. -/
theorem runBare_ne_overflow (hrefuse : ∀ e, refuse e ≠ .overflow) :
    (s.runBare refuse q f).1 ≠ .error .overflow := by
  intro h
  obtain ⟨e, -, he⟩ := fst_runBare_eq_error_iff.1 h
  exact hrefuse e he

/-- A run that `Counts` is answered in order if what its pair finds is what the level asks for. -/
theorem inOrder_runWith (hs : s.InFront) {stack : Nat} {level : Level}
    {p : Reading Cursor (Failure ε) α}
    (h : Counts (s.room ≤ stack) s.nesting p q s.rest) (hrefuse : ∀ e, refuse e ≠ .overflow)
    (hlevel : level.Honoured s (q s.rest).log (s.runBare refuse q f)) :
    s.InOrder stack level (s.runWith refuse p f) := by
  obtain ⟨hinFront, hconsistent⟩ := hs.after h
  refine ⟨hinFront, _, hconsistent, ?_⟩
  obtain ⟨heq, hlog⟩ | ⟨hoverflow, hshort⟩ := runWith_eq_runBare h refuse f
  · rw [heq, hlog]
    exact ⟨fun _ => hlevel, fun he => absurd he (runBare_ne_overflow hrefuse)⟩
  · exact ⟨fun hne => absurd hoverflow hne, fun _ => Nat.not_le.1 hshort⟩

end

theorem failed_ne_overflow (cause : GrammarCause) : Refusal.failed cause ≠ .overflow := by
  intro h
  cases h

/-- What a `Terse` parser has found makes the answer. -/
theorem new_of_terse {s : Session} {p : Parser α} (hterse : Terse p s.rest) (f : α → Answer) :
    (∀ a, (s.runBare .failed p f).1 = .ok a → (p s.rest).log = []) ∧
      ∀ e, (s.runBare .failed p f).1 = .error e →
        ∃ found, e = .failed found.cause ∧ (p s.rest).log = [found] := by
  -- nothing was found and there is a value, or one thing was found and it is the failure
  obtain ⟨a, hvalue, hlog⟩ | ⟨found, hvalue, hlog⟩ := hterse
  · refine ⟨fun _ _ => hlog, fun e he => ?_⟩
    obtain ⟨c, hc, -⟩ := fst_runBare_eq_error_iff.1 he
    cases hvalue.symm.trans hc
  · refine ⟨fun a ha => ?_, fun e he => ⟨found, ?_, hlog⟩⟩
    · obtain ⟨b, hb, -⟩ := fst_runBare_eq_ok_iff.1 ha
      cases hvalue.symm.trans hb
    · obtain ⟨c, hc, rfl⟩ := fst_runBare_eq_error_iff.1 he
      rw [Except.error.inj (hvalue.symm.trans hc)]

/-- `answerPrevious` fails only if there is no token at all. -/
theorem noToken_of_answerPrevious {s : Session} {e : Refusal} (h : s.answerPrevious = .error e) :
    e = .noToken ∧ s.tokens = [] := by
  cases hprevious : s.previous? with
  | some t =>
    rw [answerPrevious, hprevious] at h
    cases h
  | none =>
    rw [answerPrevious, hprevious] at h
    exact ⟨(Except.error.inj h).symm, eq_nil_of_previous?_eq_none hprevious⟩

/-- A call that makes no finding is `InOrder` if it can fail only where there is no token at all. -/
theorem inOrder_silent {s s' : Session} {stack : Nat} {value : Except Refusal Answer}
    (h : s'.InFront ∧ s.Consistent [] s')
    (hvalue : ∀ e, value = .error e → e = .noToken ∧ s.tokens = []) :
    s.InOrder stack .token (value, s') := by
  obtain ⟨hinFront, hconsistent⟩ := h
  refine ⟨hinFront, [], hconsistent, fun _ => ⟨fun _ _ => rfl, fun e he => .inl ?_⟩, fun he => ?_⟩
  · obtain ⟨hnoToken, hnil⟩ := hvalue e he
    exact ⟨hnoToken, hnil, rfl⟩
  · cases (hvalue _ he).1

section

variable {s : Session} (hs : s.InFront) {stack : Nat}

include hs

/-- A call about tokens is answered in order if it is `Terse`. -/
theorem inOrder_token {p : Reading Cursor (Failure GrammarCause) α} {q : Parser α}
    (h : Counts (s.room ≤ stack) s.nesting p q s.rest) (hterse : Terse q s.rest) (f : α → Answer) :
    s.InOrder stack .token (s.run p f) := by
  obtain ⟨hfound, hfailed⟩ := new_of_terse hterse f
  exact inOrder_runWith hs h failed_ne_overflow ⟨hfound, fun e he => .inr (hfailed e he)⟩

/-- A construct is answered `InOrder` if its failures are explained. -/
theorem inOrder_construct {p : Reading Cursor (Failure GrammarCause) α} {q : Parser α}
    (h : Counts (s.room ≤ stack) s.nesting p q s.rest) (hexplains : q.Explains Blames)
    (f : α → Answer) : s.InOrder stack .construct (s.run p f) := by
  refine inOrder_runWith hs h failed_ne_overflow fun e he => ?_
  obtain ⟨cause, hvalue, rfl⟩ := fst_runBare_eq_error_iff.1 he
  obtain ⟨before, found, hlog, hcause⟩ := hexplains s.rest cause hvalue
  exact ⟨before, found, congrArg Refusal.failed hcause.symm, hlog⟩

/-- An expression is answered in order if it takes a token and is `Plain`. -/
theorem inOrder_expression {p : Reading Cursor (Failure GrammarCause) Measured}
    {q : Parser Measured}
    (h : Counts (s.room ≤ stack) s.nesting p q s.rest) (heager : Eager q s.rest)
    (hplain : Plain q s.rest) : s.InOrder stack .expression (s.runExpr p) := by
  obtain ⟨hfound, hfailed⟩ := new_of_terse hplain.terse fun e => .node e.expr.toNode
  refine inOrder_runWith hs h failed_ne_overflow ⟨fun a ha => ⟨hfound a ha, ?_⟩, hfailed⟩
  obtain ⟨m, hvalue, -⟩ := fst_runBare_eq_ok_iff.1 ha
  exact hs.position_lt (heager.takes m _ _ (Outcome.eq_mk hvalue rfl rfl))

theorem InFront.stay : s.InFront ∧ s.Consistent [] s :=
  hs.advance s [] rfl (List.forall_mem_nil _) rfl rfl (List.append_nil _).symm

theorem inOrder_advance : s.InOrder stack .token (s.callWithin stack .advance) := by
  show s.InOrder stack .token
    (answerPrevious (if (next s.rest).isEnd then s else { s with rest := s.rest.tail }),
      if (next s.rest).isEnd then s else { s with rest := s.rest.tail })
  cases hend : (next s.rest).isEnd with
  | true => exact inOrder_silent hs.stay fun _ => noToken_of_answerPrevious
  | false =>
    -- a token that is gone past is no end token
    obtain ⟨t, rest, hrest⟩ : ∃ t rest, s.rest = t :: rest := by
      cases hrest : s.rest with
      | nil =>
        rw [hrest] at hend
        cases hend
      | cons t rest => exact ⟨t, rest, rfl⟩
    rw [hrest] at hend ⊢
    have hadvance :=
      hs.advance { s with rest := rest } [t] hrest (List.forall_mem_singleton.2 hend) rfl rfl
      (List.append_nil _).symm
    exact inOrder_silent hadvance fun _ => noToken_of_answerPrevious

/-- A program is answered `InOrder`, since it cannot fail. -/
theorem inOrder_program : s.InOrder stack .program (s.callWithin stack .program) := by
  refine inOrder_runWith hs (counts_program stack s.nesting s.rest) (fun e => e.elim) ?_
  cases hvalue : (program (roomBelow s.nesting) s.rest).value with
  | error e => cases e
  | ok p => exact ⟨.node p.toNode, fst_runBare_eq_ok_iff.2 ⟨p, hvalue, rfl⟩⟩

end

/-! ### Expressions -/

theorem local_inside {room : Nat} {p : Parser Measured} (hp : inside room = some p)
    (ts : List Token) :
    Local p ts := by
  obtain ⟨k, -, rfl⟩ := inside_eq_some_iff.1 hp
  exact local_expression k ts

theorem plain_inside {room : Nat} {p : Parser Measured} (hp : inside room = some p)
    (ts : List Token) :
    Plain p ts := by
  obtain ⟨k, -, rfl⟩ := inside_eq_some_iff.1 hp
  exact plain_expression k ts

/-- `arguments` takes a closing parenthesis when it succeeds. -/
theorem eager_arguments {inner : Option (Parser Measured)}
    (h : ∀ p, inner = some p → ∀ ts, Local p ts)
    (callee : Measured) (paren : Token) (ts : List Token) :
    Eager (arguments inner callee paren) ts :=
  (local_nested (fun p hp => local_listed (h p hp)) ts).bind_eager fun _ _ rest _ =>
    (eager_expect _ _ rest).bind fun _ _ rest _ => local_compound _ _ paren rest

/-- The operators of the `levels` from some level on are tokens of expressions. -/
theorem inert_of_mem_drop (above : Nat) : ∀ ops ∈ levels.drop above, ∀ tag ∈ ops, tag.Inert := by
  have hall : ∀ ops ∈ levels, ∀ tag ∈ ops, tag.Inert := by decide
  exact fun ops hops => hall ops (List.mem_of_mem_drop hops)

/-! ### All requests -/

/-- The parsers for what stands `inside` an expression count as well. -/
theorem nests_room (s : Session) (stack : Nat) :
    Nests (s.room ≤ stack) s.nesting (inside stack) (inside s.room) :=
  nests_inside stack s.nesting fun n _ => counts_expression n (s.nesting + 1)

/-- Every `Call` is answered in order. -/
theorem inOrder_call {s : Session} (hs : s.InFront) (stack : Nat) (c : Call) :
    s.InOrder stack (Request.call c).level (s.callWithin stack c) := by
  have hinside := s.nests_room stack
  -- calls about tokens come first, then constructs, then expressions from the loosest level to the
  -- tightest
  cases c with
  | peek => exact inOrder_token hs counts_peek (.inl ⟨_, rfl, rfl⟩) _
  | previous => exact inOrder_silent hs.stay fun _ => noToken_of_answerPrevious
  | atEnd => exact inOrder_token hs counts_atEnd (.inl ⟨_, rfl, rfl⟩) _
  | advance => exact inOrder_advance hs
  | check tag => exact inOrder_token hs (counts_check tag) (.inl ⟨_, rfl, rfl⟩) _
  | checkKeyword words => exact inOrder_token hs (counts_checkKeyword words) (.inl ⟨_, rfl, rfl⟩) _
  | accept tags => exact inOrder_token hs (counts_accept tags) ((picks_accept tags).terse _) _
  | expect tag message => exact inOrder_token hs (counts_expect tag _) (terse_expect tag _ _) _
  | expectKeyword words message =>
    exact inOrder_token hs (counts_expectKeyword words _) (terse_expectKeyword words _ _) _
  | synchronize =>
    show s.InOrder stack .token (if s.tokens.isEmpty then _ else _)
    split
    next hempty =>
      exact inOrder_silent hs.stay fun _ he =>
        ⟨(Except.error.inj he).symm, List.isEmpty_iff.1 hempty⟩
    next => exact inOrder_token hs counts_synchronize (.inl ⟨_, rfl, rfl⟩) _
  | program => exact inOrder_program hs
  | function => exact inOrder_construct hs (counts_function stack _ _) (explains_function _) _
  | parameters =>
    exact inOrder_construct hs (counts_parameters _) (explains_listed explains_parameter) _
  | block => exact inOrder_construct hs (counts_block stack _ _) (explains_blockWith _) _
  | statement => exact inOrder_construct hs (counts_statement stack _ _) (explains_statement _) _
  | expression =>
    exact inOrder_expression hs (counts_expression stack _ _) (eager_expression s.room _)
      (plain_expression s.room _)
  | assignment =>
    exact inOrder_expression hs (counts_assignment hinside _)
      (eager_assignment (fun _ => local_inside) _) (plain_assignment (fun _ => plain_inside) _)
  | binary above =>
    exact inOrder_expression hs (counts_binary hinside _ _)
      (eager_binary (fun _ => local_inside) _ _)
      (plain_binary (fun _ => plain_inside) (inert_of_mem_drop above) _)
  | unary =>
    exact inOrder_expression hs (counts_unary hinside _) (eager_unary (fun _ => local_inside) _)
      (plain_unary (fun _ => plain_inside) _)
  | call =>
    exact inOrder_expression hs (counts_call hinside _) (eager_call (fun _ => local_inside) _)
      (plain_call (fun _ => plain_inside) _)
  | primary =>
    exact inOrder_expression hs (counts_primary hinside _) (eager_primary (fun _ => local_inside) _)
      (plain_primary (fun _ => plain_inside) _)

/-- To finish what has begun is answered `InOrder`. -/
theorem inOrder_finish {s : Session} (hs : s.InFront) (stack : Nat) (r : Remainder) :
    s.InOrder stack (Request.finish r).level (s.finishWithin stack r) := by
  have hblock := counts_block stack s.nesting
  cases r with
  | declaration type =>
    exact inOrder_construct hs (counts_declaration stack _ type _) (explains_declaration _ type) _
  | conditional word =>
    exact inOrder_construct hs (counts_conditional stack _ hblock word _)
      (explains_conditional _ (explains_blockWith _) word) _
  | whileLoop word =>
    exact inOrder_construct hs (counts_whileLoop stack _ hblock word _)
      (explains_whileLoop _ (explains_blockWith _) word) _
  | returnStatement word =>
    exact inOrder_construct hs (counts_returnStatement stack _ word _)
      (explains_returnStatement _ word) _
  | arguments callee paren =>
    exact inOrder_expression hs (counts_arguments (s.nests_room stack) callee paren _)
      (eager_arguments (fun _ => local_inside) callee paren _)
      (plain_arguments (fun _ => plain_inside) callee paren _)

/-- Every `Request` is answered in order. -/
theorem inOrder_answer {s : Session} (hs : s.InFront) (stack : Nat) (r : Request) :
    s.InOrder stack r.level (s.answerWithin stack r) := by
  cases r with
  | call c => exact inOrder_call hs stack c
  | finish r => exact inOrder_finish hs stack r

/-- In a `Session` that can be `Reached`, only tokens in front of the end have been read. -/
theorem Reached.inFront {tokens : List Token} {nesting : Int} {s : Session}
    (h : Reached tokens nesting s) : s.InFront := by
  induction h with
  | start => exact ⟨[], rfl, List.forall_mem_nil _⟩
  | answer stack r _ ih => exact (inOrder_answer ih stack r).1
  | report f _ ih => exact ih

/-- A session with room for one more level, after an operand was missed inside a parenthesis. -/
def interrupted : Session :=
  ((Session.start (scan "(x + ; \x7by = 1;").1 49).answer (.call .expression)).2

/-- The same session behind the token that is no operand. -/
def resumed : Session :=
  (interrupted.answer (.call .advance)).2

end Session

end Parser

end Tricode
