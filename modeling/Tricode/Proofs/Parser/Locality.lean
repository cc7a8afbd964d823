import Tricode.Parser.Session
import Tricode.Proofs.Parser.Counting
import Tricode.Proofs.Parser.Correspondence
import Tricode.Proofs.Parser.Local
import Tricode.Token.Scan

/-!
# Parsing comes to its end

Every parser of the grammar is local, and those for expressions, statements and functions take a
token whenever they succeed. It follows that all loops come to an end, that a program is read up to
the end and no further (`state_program`), and that nothing behind the end matters
(`program_cutoff`).
-/

namespace Tricode

namespace Parser

open Pass

variable {α ε : Type}

/-! ### Expressions -/

theorem local_compound (e : Expr) (below : Nat) (t : Token) (ts : List Token) :
    Local (compound e below t) ts := by
  unfold compound
  split
  · exact local_failAt _ t ts
  · exact local_pure _ ts

section

variable {inner : Option (Parser Measured)} (h : ∀ p, inner = some p → ∀ ts, Local p ts)

include h

theorem eager_primary (ts : List Token) : Eager (primary inner) ts := by
  refine (local_peek ts).bind_eager fun t _ rest hpeek => ?_
  cases hpeek
  cases ts with
  | nil => exact eager_failAt _ _ []
  | cons t ts =>
    -- the token that was looked at is the one that is skipped
    have hskip : ∀ m : Measured, t.isEnd = false →
        Eager (do skip; pure m : Parser Measured) (t :: ts) :=
      fun m ht => (eager_skip ht ts).bind fun _ _ rest _ => local_pure m rest
    rw [left_list, next_cons]
    split
    · next hword => exact hskip _ (isEnd_of_isKeyword hword)
    · split
      · next htag => exact hskip _ (isEnd_of_tag_eq htag (by decide))
      · next htag => exact hskip _ (isEnd_of_tag_eq htag (by decide))
      · next htag => exact hskip _ (isEnd_of_tag_eq htag (by decide))
      · next htag =>
        refine (eager_skip (isEnd_of_tag_eq htag (by decide)) ts).bind fun _ _ rest _ => ?_
        exact (local_nested h rest).bind fun e _ rest _ =>
          (local_expect _ _ rest).bind fun _ _ rest _ => local_pure e rest
      · exact eager_failAt _ t _

theorem local_arguments (callee : Measured) (paren : Token) (ts : List Token) :
    Local (arguments inner callee paren) ts :=
  (local_nested (fun p hp => local_listed (h p hp)) ts).bind fun _ _ rest _ =>
    (local_expect _ _ rest).bind fun _ _ rest _ => local_compound _ _ paren rest

/-- The `arguments` of a call, list after list, come to an end. -/
theorem progresses_arguments :
    Progresses fun callee => behind [.leftParen] (arguments inner callee) :=
  progresses_of_paced fun callee => paced_behind (local_arguments h callee)

theorem eager_call (ts : List Token) : Eager (call inner) ts := by
  rw [call_eq]
  exact (eager_primary h ts).bind fun callee _ rest _ => local_loop (progresses_arguments h)
    (fun callee => local_behind (local_arguments h callee)) callee rest

omit h in
theorem local_prefixes (ops : List Token) (operand : Measured) (ts : List Token) :
    Local (ops.foldlM (fun operand op =>
      compound (.unary op.text operand.expr op.pos) operand.depth op) operand : Parser Measured)
        ts := by
  induction ops generalizing operand ts with
  | nil => exact local_pure operand ts
  | cons op ops ih =>
    exact (local_compound _ _ op ts).bind fun operand' _ rest _ => ih operand' rest

theorem eager_unary (ts : List Token) : Eager (unary inner) ts :=
  (local_many (paced_accept _) (local_accept _) ts).bind_eager fun _ _ rest _ =>
    (eager_call h rest).bind fun operand _ rest _ => local_prefixes _ operand rest

omit h in
theorem local_operation {operand : Parser Measured} (hoperand : ∀ ts, Local operand ts)
    (left : Measured) (op : Token) (ts : List Token) : Local (operation operand left op) ts :=
  (hoperand ts).bind fun _ _ rest _ => local_compound _ _ op rest

omit h in
/-- The steps of `operation` on one level come to an end. -/
theorem progresses_operation {operand : Parser Measured} (hoperand : ∀ ts, Local operand ts)
    (ops : List Tag) : Progresses fun left => behind ops (operation operand left) :=
  progresses_of_paced fun left => paced_behind (local_operation hoperand left)

theorem eager_binary (tighter : List (List Tag)) (ts : List Token) :
    Eager (binary inner tighter) ts := by
  induction tighter generalizing ts with
  | nil => exact eager_unary h ts
  | cons ops tighter ih =>
    have hoperand : ∀ ts, Local (binary inner tighter) ts := fun ts => (ih ts).toLocal
    rw [binary, chain_eq]
    exact (ih ts).bind fun first _ rest _ => local_loop (progresses_operation hoperand ops)
      (fun left => local_behind (local_operation hoperand left)) first rest

theorem eager_assignment (ts : List Token) : Eager (assignment inner) ts := by
  refine (eager_binary h levels ts).bind fun target _ rest _ =>
    (local_accept _ rest).bind fun t? _ rest _ => ?_
  cases t? with
  | none => exact local_pure target rest
  | some sign =>
    refine (local_nested h rest).bind fun value _ rest _ => ?_
    split
    · exact local_compound _ _ sign rest
    · exact local_failAt _ sign rest

end

/-- An `expression` takes a token. -/
theorem eager_expression (room : Nat) (ts : List Token) : Eager (expression room) ts := by
  -- what stands further in is read with less room
  induction room generalizing ts with
  | zero => exact eager_assignment (fun _ hp => by cases hp) ts
  | succ room ih => exact eager_assignment (fun p hp ts => Option.some.inj hp ▸ (ih ts).toLocal) ts

theorem local_expression (room : Nat) (ts : List Token) : Local (expression room) ts :=
  (eager_expression room ts).toLocal

/-! ### Statements -/

theorem local_declaration (room : Nat) (type : Token) (ts : List Token) :
    Local (declaration room type) ts := by
  refine (local_expect _ _ ts).bind fun name _ rest _ =>
    (local_accept _ rest).bind fun t? _ rest _ => ?_
  cases t? with
  | none =>
    exact (local_pure _ rest).bind fun _ _ rest _ =>
      (local_expect _ _ rest).bind fun _ _ rest _ => local_pure _ rest
  | some sign =>
    exact (local_expression room rest).bind fun _ _ rest _ =>
      (local_pure _ rest).bind fun _ _ rest _ =>
      (local_expect _ _ rest).bind fun _ _ rest _ => local_pure _ rest

theorem local_conditional (room : Nat) {block : Parser Block} (h : ∀ ts, Local block ts)
    (word : Token) (ts : List Token) : Local (conditional room block word) ts := by
  refine (local_expect _ _ ts).bind fun _ _ rest _ => (local_expression room rest).bind
    fun cond _ rest _ => (local_expect _ _ rest).bind fun _ _ rest _ => (h rest).bind
      fun body _ rest _ => (local_acceptKeyword _ rest).bind fun t? _ rest _ => ?_
  cases t? with
  | none => exact local_pure _ rest
  | some other => exact (h rest).bind fun _ _ rest _ => local_pure _ rest

theorem local_whileLoop (room : Nat) {block : Parser Block} (h : ∀ ts, Local block ts)
    (word : Token) (ts : List Token) : Local (whileLoop room block word) ts :=
  (local_expect _ _ ts).bind fun _ _ rest _ => (local_expression room rest).bind fun _ _ rest _ =>
    (local_expect _ _ rest).bind fun _ _ rest _ => (h rest).bind fun _ _ rest _ => local_pure _ rest

theorem local_returnStatement (room : Nat) (word : Token) (ts : List Token) :
    Local (returnStatement room word) ts := by
  refine (local_check _ ts).bind fun b _ rest _ => ?_
  cases b with
  | true =>
    exact (local_pure _ rest).bind fun _ _ rest _ =>
      (local_expect _ _ rest).bind fun _ _ rest _ => local_pure _ rest
  | false =>
    exact (local_expression room rest).bind fun _ _ rest _ =>
      (local_pure _ rest).bind fun _ _ rest _ =>
      (local_expect _ _ rest).bind fun _ _ rest _ => local_pure _ rest

theorem local_keywordStatement (room : Nat) {block : Parser Block} (h : ∀ ts, Local block ts)
    (t : Token) (ts : List Token) : Local (keywordStatement room block t) ts := by
  unfold keywordStatement
  split
  · exact (local_declaration room t ts).map some
  split
  · exact (local_conditional room h t ts).map some
  split
  · exact (local_whileLoop room h t ts).map some
  split
  · exact (local_returnStatement room t ts).map some
  · exact (local_write _ ts).bind fun _ _ rest _ => local_pure none rest

/-- A statement takes a token, if its blocks are `Local`. -/
theorem eager_statementWith (room : Nat) {block : Parser Block} (h : ∀ ts, Local block ts)
    (ts : List Token) : Eager (statementWith room block) ts := by
  rw [statementWith_eq]
  refine (local_peek ts).bind_eager fun t _ rest hpeek => ?_
  cases hpeek
  split
  · next hkeyword =>
    rw [Bool.and_eq_true, beq_iff_eq] at hkeyword
    cases ts with
    | nil => cases hkeyword.1
    | cons t ts =>
      -- the keyword is taken, and so a token
      have ht : t.isEnd = false := isEnd_of_tag_eq hkeyword.1 (by decide)
      exact (eager_skip ht ts).bind fun _ _ rest _ => local_keywordStatement room h _ rest
  · exact (eager_expression room ts).bind fun e _ rest _ =>
      (local_expect _ _ rest).bind fun _ _ rest _ => local_pure _ rest

/-! ### Blocks -/

theorem local_blockItem {p : Parser (Option Stmt)} (hp : ∀ ts, Local p ts) (ts : List Token) :
    Local (blockItem p) ts := by
  refine (local_check _ ts).bind fun b _ rest _ => (local_atEnd rest).bind fun b' _ rest _ => ?_
  split
  · exact local_pure none rest
  · exact (local_recovering (hp rest)).map some

/-- At a closing brace or at the end, `blockItem` finds no more statements. -/
theorem blockItem_of_stop {p : Parser (Option Stmt)} {ts : List Token}
    (h : (sees [.rightBrace] ts || (next ts).isEnd) = true) :
    blockItem p ts = ⟨.ok none, [], ts⟩ := by
  unfold blockItem
  rw [(check_yields_iff.2 ⟨rfl, rfl⟩).bind_apply, (atEnd_yields_iff.2 ⟨rfl, rfl⟩).bind_apply,
    if_pos h]
  rfl

/-- The statements that `blockItem` reads come to an end. -/
theorem paced_blockItem {p : Parser (Option Stmt)} (hp : ∀ ts, Eager p ts) :
    Paced (blockItem p) where
  stops := rfl
  reads ts a log rest h := by
    by_cases hstop : (sees [.rightBrace] ts || (next ts).isEnd) = true
    · rw [blockItem_of_stop hstop] at h
      cases h
    · simp only [Bool.or_eq_true, not_or, Bool.not_eq_true] at hstop
      rw [blockItem_apply hstop.1 hstop.2] at h
      exact ((eager_recovering (hp ts) hstop.2).map some).takes _ log rest h

/-- A block is `Local` if its statements take tokens. -/
theorem local_blockWith {statement : Option (Parser (Option Stmt))}
    (h : ∀ p, statement = some p → ∀ ts, Eager p ts) (ts : List Token) :
    Local (blockWith statement) ts := by
  have hblock : ∀ p, statement = some p → ∀ ts, Local (many (blockItem p)) ts :=
    fun p hp => local_many (paced_blockItem (h p hp))
      (local_blockItem fun ts => (h p hp ts).toLocal)
  exact (local_expect _ _ ts).bind fun _ _ rest _ =>
    (local_nested hblock rest).bind fun _ _ rest _ =>
    (local_expect _ _ rest).bind fun _ _ rest _ => local_pure _ rest

/-- A `statement` takes a token. -/
theorem eager_statement (room : Nat) (ts : List Token) : Eager (statement room) ts := by
  induction room generalizing ts with
  | zero =>
    have hblock : ∀ ts, Local (blockWith none) ts := local_blockWith fun _ hp => by cases hp
    exact eager_statementWith 0 hblock ts
  | succ room ih =>
    have hblock : ∀ ts, Local (blockWith (some (statement room))) ts :=
      local_blockWith fun p hp => Option.some.inj hp ▸ ih
    exact eager_statementWith (room + 1) hblock ts

theorem local_block (room : Nat) (ts : List Token) : Local (block room) ts := by
  refine local_blockWith (fun p hp => ?_) ts
  cases room with
  | zero => cases hp
  | succ room => exact Option.some.inj hp ▸ eager_statement room

/-! ### Functions and programs -/

theorem local_parameter (ts : List Token) : Local parameter ts :=
  (local_expectKeyword _ _ ts).bind fun _ _ rest _ => (local_expect _ _ rest).bind
    fun _ _ rest _ => local_pure _ rest

theorem eager_function (room : Nat) (ts : List Token) : Eager (function room) ts :=
  (eager_expectKeyword _ _ ts).bind fun _ _ rest _ => (local_expect _ _ rest).bind fun _ _ rest _ =>
    (local_expect _ _ rest).bind fun _ _ rest _ => (local_listed local_parameter rest).bind
      fun _ _ rest _ => (local_expect _ _ rest).bind fun _ _ rest _ => (local_block room rest).bind
        fun _ _ rest _ => local_pure _ rest

theorem local_programItem (room : Nat) (ts : List Token) : Local (programItem room) ts := by
  refine (local_atEnd ts).bind fun b _ rest _ => ?_
  cases b with
  | true => exact local_pure none rest
  | false => exact (local_recovering ((eager_function room rest).toLocal.map some)).map some

/-- At the end, `programItem` finds no more functions. -/
theorem programItem_of_isEnd (room : Nat) {ts : List Token} (h : (next ts).isEnd = true) :
    programItem room ts = ⟨.ok none, [], ts⟩ := by
  unfold programItem
  rw [(atEnd_yields_iff.2 ⟨rfl, rfl⟩).bind_apply, h]
  rfl

/-- Before the end, `programItem` finds a function, or recovers. -/
theorem programItem_of_not_isEnd (room : Nat) {ts : List Token} (h : (next ts).isEnd = false) :
    programItem room ts = (some <$> recovering id (some <$> function room) : Reader Empty _)
      ts := by
  unfold programItem
  rw [(atEnd_yields_iff.2 ⟨rfl, rfl⟩).bind_apply, h]
  rfl

/-- The functions that `programItem` reads come to an end. -/
theorem paced_programItem (room : Nat) : Paced (programItem room) where
  stops := programItem_of_isEnd room rfl
  reads ts a log rest h := by
    -- at the end there is no item; before it, the function takes a token or recovery does
    cases hend : (next ts).isEnd with
    | true =>
      rw [programItem_of_isEnd room hend] at h
      cases h
    | false =>
      rw [programItem_of_not_isEnd room hend] at h
      exact ((eager_recovering ((eager_function room ts).map some) hend).map some).takes _ log rest
        h

theorem local_program (room : Nat) (ts : List Token) : Local (program room) ts :=
  (local_peek ts).bind fun _ _ rest _ =>
    (local_many (paced_programItem room) (local_programItem room) rest).bind
      fun _ _ rest _ => local_pure _ rest

/-! ### Loops -/

/-- The loop ends because one of its steps is the last one or fails, not because its measure is used
up. -/
def Ends (step : α → Reader ε (Option α)) : Prop :=
  ∀ a ts, Runs step a ts (loop step a ts)

/-- All loops of the parser come to an end. -/
structure LoopsEnd : Prop where
  functions : ∀ room, Ends (collect (programItem room))
  statements : ∀ room, Ends (collect (blockItem (statement room)))
  parameters : Ends (collect (behind [.comma] fun _ => parameter))
  arguments : ∀ room, Ends (collect (behind [.comma] fun _ => expression room))
  signs : Ends (collect (accept [.logicalNot, .minus] : Parser (Option Token)))
  calls : ∀ room, Ends fun callee => behind [.leftParen] (Parser.arguments (inside room) callee)
  operations : ∀ room ops tighter,
    Ends fun left => behind ops (operation (binary (inside room) tighter) left)

/-- All the loops of the parser come to an end, `LoopsEnd`. -/
theorem loops_end : LoopsEnd := by
  have hinside : ∀ room p, inside room = some p → ∀ ts, Local p ts := by
    intro room p hp ts
    obtain ⟨k, -, rfl⟩ := inside_eq_some_iff.1 hp
    exact local_expression k ts
  constructor
  case functions => exact fun room => runs_loop (progresses_collect (paced_programItem room))
  case statements =>
    exact fun room => runs_loop (progresses_collect (paced_blockItem (eager_statement room)))
  case parameters => exact runs_loop (progresses_collect (paced_behind fun _ => local_parameter))
  case arguments =>
    exact fun room => runs_loop (progresses_collect (paced_behind fun _ => local_expression room))
  case signs => exact runs_loop (progresses_collect (paced_accept _))
  case calls => exact fun room => runs_loop (progresses_arguments (hinside room))
  case operations =>
    exact fun room ops tighter => runs_loop
      (progresses_operation (fun ts => (eager_binary (hinside room) tighter ts).toLocal) ops)

/-! ### The end of a program -/

/-- `programItem` finds no more functions only at the end. -/
theorem isEnd_of_programItem_eq_none {room : Nat} {ts rest : List Token}
    {log : List (Finding GrammarCause)}
    (h : programItem room ts = ⟨.ok none, log, rest⟩) : (next rest).isEnd = true := by
  cases hend : (next ts).isEnd with
  | true =>
    rw [programItem_of_isEnd room hend] at h
    cases h
    exact hend
  | false =>
    rw [programItem_of_not_isEnd room hend, ← bind_pure_comp] at h
    -- before the end there is an item, whether it was given up or not
    obtain ⟨found, _, _, _, -, hpure⟩ := exists_of_bind_eq_ok h
    cases hpure

/-- A loop over `programItem` that succeeds has come to the end. -/
theorem Runs.isEnd {room : Nat} {found found' : List (Option Function)} {ts : List Token}
    {r : Outcome (List Token) (Finding GrammarCause) Empty (List (Option Function))}
    (h : Runs (collect (programItem room)) found ts r) (hr : r.value = .ok found') :
    (next r.state).isEnd = true := by
  induction h with
  | done last =>
    obtain ⟨f?, _, mid, _, hitem, hcollect⟩ := exists_of_bind_eq_ok last
    cases f? with
    | some f => cases hcollect
    | none =>
      cases hcollect
      exact isEnd_of_programItem_eq_none hitem
  | failed _ => cases hr
  | further _ _ ih => exact ih hr

/-- `program` reads up to the end. -/
theorem isEnd_state_program (room : Nat) (ts : List Token) :
    (next (program room ts).state).isEnd = true := by
  -- a program cannot fail, so its loop has not failed either
  have hvalue : (program room ts).value = .ok (program room ts).get :=
    Outcome.value_eq_ok_of_get rfl
  obtain ⟨first, _, _, _, -, hrest⟩ := exists_of_bind_eq_ok (Outcome.eq_mk hvalue rfl rfl)
  obtain ⟨_, _, mid, _, hmany, hpure⟩ := exists_of_bind_eq_ok hrest
  obtain ⟨found, _, mid', _, hloop, hpure'⟩ := exists_of_bind_eq_ok hmany
  have hruns := (loop_eq_iff_runs (progresses_collect (paced_programItem room))).1 hloop
  have hstate : (program room ts).state = mid' :=
    (congrArg Outcome.state hpure).symm.trans (congrArg Outcome.state hpure').symm
  rw [hstate]
  exact hruns.isEnd rfl

/-- Where the text ends: at the first end token, or behind the last token if there is none. -/
def endOf (ts : List Token) : Nat :=
  ts.findIdx Token.isEnd

/-- The number `endOf` counts the tokens in front that do not end the text. -/
theorem endOf_append {w ts : List Token} (hw : ∀ t ∈ w, t.isEnd = false)
    (hts : (next ts).isEnd = true) : endOf (w ++ ts) = w.length := by
  have hnone : w.findIdx Token.isEnd = w.length := List.findIdx_eq_length.2 hw
  have hzero : ts.findIdx Token.isEnd = 0 := by
    cases ts with
    | nil => rfl
    | cons t ts =>
      rw [next_cons] at hts
      rw [List.findIdx_cons, hts]
      rfl
  rw [endOf, List.findIdx_append, hnone, if_neg (Nat.lt_irrefl _), hzero, Nat.zero_add]

/-- `program` reads up to the end and no further. -/
theorem state_program (room : Nat) (ts : List Token) :
    (program room ts).state = ts.drop (endOf ts) := by
  obtain ⟨w, hw, hend⟩ := (local_program room ts).reads
  have hendOf := endOf_append hend (isEnd_state_program room ts)
  rw [← hw] at hendOf
  rw [hendOf]
  conv_rhs => rw [hw]
  rw [List.drop_left]

/-- The tokens up to the end and the end token, which is put behind them if there is none. -/
def cutoff (ts : List Token) : List Token :=
  ts.take (endOf ts) ++ [ts[endOf ts]?.getD .beyond]

/-- In `cutoff`, either the end was there, or it was added. -/
theorem cutoff_cases (ts : List Token) :
    (∃ t ∈ cutoff ts, t.isEnd = true) ∧
      ((∃ more, ts = cutoff ts ++ more) ∨ cutoff ts = ts ++ [.beyond]) := by
  -- the first end token is at `endOf ts` if there is one
  by_cases hlt : endOf ts < ts.length
  · have hget : ts[endOf ts]?.getD .beyond = ts[endOf ts] := by
      rw [List.getElem?_eq_getElem hlt]
      rfl
    have hcut : cutoff ts = ts.take (endOf ts + 1) := by
      rw [cutoff, hget, List.take_append_getElem]
    refine ⟨⟨ts[endOf ts], ?_, List.findIdx_getElem⟩, .inl ⟨ts.drop (endOf ts + 1), ?_⟩⟩
    · rw [cutoff, hget]
      exact List.mem_append_right _ (List.mem_singleton_self _)
    · rw [hcut, List.take_append_drop]
  · have hcut : cutoff ts = ts ++ [.beyond] := by
      rw [cutoff, List.take_of_length_le (Nat.le_of_not_lt hlt),
        List.getElem?_eq_none (Nat.le_of_not_lt hlt)]
      rfl
    rw [hcut]
    exact ⟨⟨_, List.mem_append_right _ (List.mem_singleton_self _), rfl⟩, .inr rfl⟩

/-- What stands behind the end changes nothing for `parse`. -/
theorem parse_append {ts more : List Token} (h : Sealed ts more) :
    parse (ts ++ more) = parse ts := by
  rw [parse, (local_program maxNesting ts).append more h]
  rfl

/-- For `parse`, what stands behind the first end may be cut off, and a missing end be added. -/
theorem parse_cutoff (ts : List Token) : parse (cutoff ts) = parse ts := by
  obtain ⟨hend, ⟨more, hmore⟩ | hcut⟩ := cutoff_cases ts
  · conv_rhs => rw [hmore]
    rw [parse_append (.inl hend)]
  · rw [hcut, parse_append (.inr rfl)]

namespace Session

/-- Behind a token that has been read, `previous?` is this token. -/
theorem previous?_of_cons {s : Session} (hs : s.rest <:+ s.tokens) {t : Token} {rest : List Token}
    (h : s.rest = t :: rest) : ({ s with rest := rest } : Session).previous? = some t := by
  obtain ⟨w, hw⟩ := hs
  rw [h] at hw
  have hposition : ({ s with rest := rest } : Session).position = w.length + 1 := by
    show s.tokens.length - rest.length = w.length + 1
    rw [← hw, List.length_append, List.length_cons]
    omega
  rw [previous?, hposition, if_neg (Nat.succ_ne_zero _), ← hw]
  simp

/-- There is no `previous?` token only if there are no tokens. -/
theorem eq_nil_of_previous?_eq_none {s : Session} (h : s.previous? = none) : s.tokens = [] := by
  rw [previous?] at h
  split at h
  · exact List.getLast?_eq_none_iff.1 h
  · next hposition =>
    rw [List.getElem?_eq_none_iff] at h
    have hle : s.position ≤ s.tokens.length := Nat.sub_le _ _
    omega

end Session

/-- A program is parsed from all tokens. The loops of the parser come to an end, and the whole
parser gives a program, not a failure, with the counter of levels back at zero and the next token
the first end token, or behind the last token: `endOf`. What stands behind the end changes nothing,
and an end that is missing can be added, as in `cutoff`. A token is looked back on by `previous?`
where one has been read; without tokens, where there is nothing to look back on, parsing stops at
once. -/
theorem parse_ends (ts : List Token) :
    LoopsEnd ∧
      (Session.start ts 0).call .program =
        (.ok (.node (parse ts).1.toNode), ⟨ts, ts.drop (endOf ts), 0, (parse ts).2⟩) ∧
      ((Session.start ts 0).call .program).2.position = endOf ts ∧
      parse ts = parse (cutoff ts) ∧
      (∀ more, parse (cutoff ts ++ more) = parse ts) ∧
      ∀ s : Session, s.tokens = ts → s.rest <:+ ts →
        (∀ t rest, s.rest = t :: rest → ({ s with rest := rest } : Session).previous? = some t) ∧
        (s.previous? = none → ts = [] ∧ programItem s.room s.rest = ⟨.ok none, [], []⟩) := by
  have hcall : (Session.start ts 0).call .program =
      (.ok (.node (parse ts).1.toNode), ⟨ts, ts.drop (endOf ts), 0, (parse ts).2⟩) := by
    -- without any level around it, a program has all the room on the stack
    have hrun := (counts_program maxNesting 0 ts).eq_of_fits (Nat.le_refl maxNesting)
    rw [← state_program maxNesting ts]
    exact Session.runWith_eq (s := Session.start ts 0) hrun _ _
  refine ⟨loops_end, hcall, ?_, (parse_cutoff ts).symm, fun more => ?_, ?_⟩
  · have hle : endOf ts ≤ ts.length := List.findIdx_le_length
    rw [hcall]
    show ts.length - (ts.drop (endOf ts)).length = endOf ts
    rw [List.length_drop]
    omega
  · exact (parse_append (.inl (cutoff_cases ts).1)).trans (parse_cutoff ts)
  · rintro s rfl hs
    refine ⟨fun t rest h => Session.previous?_of_cons hs h, fun h => ?_⟩
    have htokens := Session.eq_nil_of_previous?_eq_none h
    rw [htokens, List.suffix_nil] at hs
    rw [hs]
    exact ⟨htokens, programItem_of_isEnd s.room rfl⟩

/-- A text that ends inside the head of a function, and behind its end a whole function. -/
def cutShort : List Token :=
  (scan "int f(").1 ++ (scan "int g() \x7b \x7d").1

/-- The second function is not seen. Without tokens there is nothing to look back on, and nothing is
parsed. -/
theorem parse_ends_cutShort :
    endOf cutShort = 3 ∧ cutShort.length = 11 ∧
      ((Session.start cutShort 0).call .program).2.position = 3 ∧
      cutoff cutShort = (scan "int f(").1 ∧ parse cutShort = parse (scan "int f(").1 ∧
      (Session.start [] 0).previous? = none ∧
      programItem maxNesting ([] : List Token) = ⟨.ok none, [], []⟩ := by
  obtain ⟨-, -, hposition, hcutoff, -, -⟩ := parse_ends cutShort
  obtain ⟨-, -, -, -, -, hsession⟩ := parse_ends []
  have hend : endOf cutShort = 3 := by decide +kernel
  have hcut : cutoff cutShort = (scan "int f(").1 := by decide +kernel
  rw [hend] at hposition
  rw [hcut] at hcutoff
  have hempty := (hsession (Session.start [] 0) rfl List.suffix_rfl).2 rfl
  exact ⟨hend, by decide +kernel, hposition, hcut, hcutoff, rfl, hempty.2⟩

end Parser

end Tricode
