import Mathlib.Order.Bounds.Defs
import Tricode.Proofs.Parser.Session

/-!
# Where recovery stops

Recovery leaves the place of a failure behind, and stops as soon as parsing can go on: at the end,
right behind a semicolon, or right in front of a keyword that may begin a statement or a function
(`Resumable`). In front of the end it takes one token at least, so a place at which parsing could go
on is left as well if recovery begins there. It stops at the first such place behind, whatever the
tokens are (`Session.synchronize_isLeast`).

The loop decides by the token skipped last and by the next one, which are the tokens on both sides
of a place (`resumable_iff`). It goes forward one token at a time, so the place where it stops is
the least.
-/

namespace Tricode

namespace Parser

/-- Parsing can go on at the place in front of the token with number `q`: it is the end, the token
in front of it is a semicolon, or the token behind it is one of the seven keywords that may begin a
statement or a function. -/
def Resumable (tokens : List Token) (q : Nat) : Prop :=
  q = endOf tokens ∨ (∃ t, tokens[q - 1]? = some t ∧ t.tag = .semicolon) ∨
    ∃ t, tokens[q]? = some t ∧ t.tag = .keyword ∧
      t.text ∈ ["int", "float", "bool", "void", "if", "while", "return"]

/-- The places behind `p`, up to the end, at which parsing can go on. -/
def resumptions (tokens : List Token) (p : Nat) : Set Nat :=
  {q | p < q ∧ q ≤ endOf tokens ∧ Resumable tokens q}

section

variable {w : List Token} {last : Token}

/-- A place behind tokens in front of the end is `endOf` the tokens exactly if the next token is the
end token. -/
theorem length_eq_endOf_iff (hw : ∀ u ∈ w, u.isEnd = false) (ts : List Token) :
    w.length = endOf (w ++ ts) ↔ (next ts).isEnd = true := by
  refine ⟨fun h => ?_, fun h => (endOf_append hw h).symm⟩
  cases ts with
  | nil => rfl
  | cons t ts =>
    by_contra ht
    -- the token would have been gone past as well
    have hread : ∀ u ∈ w ++ [t], u.isEnd = false :=
      List.forall_mem_append.2 ⟨hw, List.forall_mem_singleton.2 (by simpa using ht)⟩
    have hle : (w ++ [t]).length ≤ endOf (w ++ [t] ++ ts) := length_le_endOf hread
    rw [List.append_assoc, List.singleton_append, ← h, List.length_append] at hle
    exact absurd hle (Nat.not_succ_le_self _)

/-- Whether a place between two tokens is `Resumable` is told by the two tokens. -/
theorem resumable_iff (hw : ∀ u ∈ w ++ [last], u.isEnd = false) (t : Token) (ts : List Token) :
    Resumable (w ++ last :: t :: ts) (w.length + 1) ↔
      (t.isEnd || last.tag == .semicolon || t.isKeyword recoveryWords) = true := by
  have hend : w.length + 1 = endOf (w ++ last :: t :: ts) ↔ t.isEnd = true := by
    have hiff := length_eq_endOf_iff hw (t :: ts)
    rwa [List.append_assoc, List.length_append] at hiff
  have hlast : (w ++ last :: t :: ts)[w.length + 1 - 1]? = some last := by
    rw [Nat.add_sub_cancel, List.getElem?_append_right (Nat.le_refl _), Nat.sub_self]
    rfl
  have hnext : (w ++ last :: t :: ts)[w.length + 1]? = some t := by
    rw [List.getElem?_append_right (Nat.le_add_right _ 1), Nat.add_sub_cancel_left]
    rfl
  -- each of the three reasons to stop is read off one of the two tokens
  rw [Resumable, hend, hlast, hnext, Bool.or_eq_true, Bool.or_eq_true, isKeyword_eq_true_iff,
    recoveryWords, or_assoc]
  simp only [Option.some.injEq, exists_eq_left', beq_iff_eq]

end

/-! ### Skipping tokens -/

/-- `skipFrom` stops at the first of the `resumptions` behind the token skipped last. -/
theorem isLeast_skipFrom (w : List Token) (last : Token) (ts : List Token)
    (hw : ∀ u ∈ w ++ [last], u.isEnd = false) :
    ∃ v, w ++ last :: ts = v ++ skipFrom last ts ∧
      IsLeast (resumptions (w ++ last :: ts) w.length) v.length := by
  induction ts generalizing w last with
  | nil =>
    have hend : (w ++ [last]).length = endOf (w ++ [last] ++ []) :=
      (length_eq_endOf_iff hw []).2 rfl
    rw [List.append_nil] at hend
    refine ⟨w ++ [last], by simp [skipFrom], ⟨?_, Nat.le_of_eq hend, .inl hend⟩, fun q hq => ?_⟩
    · rw [List.length_append]
      exact Nat.lt_succ_self _
    · rw [List.length_append]
      exact hq.1
  | cons t ts ih =>
    have hstop := resumable_iff hw t ts
    unfold skipFrom
    split
    · next hskip =>
      have hle : (w ++ [last]).length ≤ endOf (w ++ [last] ++ t :: ts) := length_le_endOf hw
      rw [List.append_assoc, List.length_append] at hle
      refine ⟨w ++ [last], by simp, ?_, fun q hq => ?_⟩
      · rw [List.length_append]
        exact ⟨Nat.lt_succ_self _, hle, hstop.2 hskip⟩
      · rw [List.length_append]
        exact hq.1
    · next hskip =>
      -- parsing cannot go on right behind the last token, so the first place lies behind the next
      -- one
      have ht : t.isEnd = false := by
        simp only [Bool.or_eq_true, not_or, Bool.not_eq_true] at hskip
        exact hskip.1.1
      obtain ⟨v, hv, ⟨hlt, hmem⟩, hleast⟩ := ih (w ++ [last]) t
        (List.forall_mem_append.2 ⟨hw, List.forall_mem_singleton.2 ht⟩)
      rw [List.append_assoc, List.singleton_append] at hv hmem hleast
      rw [List.length_append, List.length_singleton] at hlt hleast
      refine ⟨v, hv, ⟨Nat.lt_of_succ_lt hlt, hmem⟩, fun q hq => hleast ⟨?_, hq.2⟩⟩
      refine Nat.lt_of_le_of_ne hq.1 fun heq => hskip (hstop.1 ?_)
      exact heq ▸ hq.2.2

/-- In front of the end, `recovered` is what stands behind the first of the `resumptions` further
on. At the end, recovery stays. -/
theorem isLeast_recovered (w ts : List Token) (hw : ∀ u ∈ w, u.isEnd = false) :
    (w.length = endOf (w ++ ts) → recovered ts = ts) ∧
      (w.length ≠ endOf (w ++ ts) → ∃ v, w ++ ts = v ++ recovered ts ∧
        IsLeast (resumptions (w ++ ts) w.length) v.length) := by
  rw [ne_eq, length_eq_endOf_iff hw]
  cases ts with
  | nil => exact ⟨fun _ => rfl, fun h => absurd rfl h⟩
  | cons t ts =>
    rw [next_cons, recovered]
    refine ⟨fun ht => if_pos ht, fun ht => ?_⟩
    rw [if_neg ht]
    exact isLeast_skipFrom w t ts
      (List.forall_mem_append.2 ⟨hw, List.forall_mem_singleton.2 (by simpa using ht)⟩)

namespace Session

/-- The tokens of a `Session` never change. -/
theorem Reached.tokens_eq {tokens : List Token} {nesting : Int} {s : Session}
    (h : Reached tokens nesting s) : s.tokens = tokens := by
  induction h with
  | start => rfl
  | answer stack r earlier ih =>
    obtain ⟨-, _, hconsistent, -⟩ := inOrder_answer earlier.inFront stack r
    exact hconsistent.tokens.trans ih
  | report f _ ih => exact ih

/-- Recovery stays at the end. Anywhere else it stops at the first of the `resumptions` behind where
the `Session` stands: the first place that is the end, or right behind a semicolon, or right in
front of a keyword that may begin a statement or a function. It reports nothing and leaves the
counter of levels alone. -/
theorem synchronize_isLeast {tokens : List Token} {nesting : Int} {s : Session}
    (h : Reached tokens nesting s) (htokens : tokens ≠ []) :
    (s.call .synchronize).1 = .ok .nothing ∧
      (s.call .synchronize).2.findings = s.findings ∧
      (s.call .synchronize).2.nesting = s.nesting ∧
      (s.position = endOf tokens → (s.call .synchronize).2.position = s.position) ∧
      (s.position ≠ endOf tokens →
        IsLeast (resumptions tokens s.position) (s.call .synchronize).2.position) := by
  obtain rfl := h.tokens_eq
  obtain ⟨w, hw, hread⟩ := h.inFront
  -- with tokens there is something to look back on, so recovery runs
  have hcall : s.call .synchronize = (.ok .nothing, { s with rest := recovered s.rest }) := by
    have hempty : s.tokens.isEmpty = false := by simpa using htokens
    show (if s.tokens.isEmpty then _ else _) = _
    rw [hempty, if_neg Bool.false_ne_true]
    show (_, (⟨s.tokens, recovered s.rest, s.nesting, s.findings ++ []⟩ : Session)) = _
    rw [List.append_nil]
    rfl
  obtain ⟨hstays, hmoves⟩ := isLeast_recovered w s.rest hread
  rw [← hw] at hstays hmoves
  rw [hcall, position_eq hw]
  refine ⟨rfl, rfl, rfl, fun hend => ?_, fun hend => ?_⟩
  · rw [hstays hend]
    exact position_eq hw
  · obtain ⟨v, hv, hleast⟩ := hmoves hend
    have hposition : ({ s with rest := recovered s.rest } : Session).position = v.length :=
      position_eq hv
    rw [hposition]
    exact hleast

/-- A session that has recovered once, in front of the keyword. -/
def resynchronized : Session :=
  ((Session.start (scan "x y while z ; w").1 0).answer (.call .synchronize)).2

/-- The keyword that the `resynchronized` parser stands at is left behind, and the next place is the
one behind the semicolon. -/
theorem synchronize_isLeast_resynchronized :
    resynchronized.position = 2 ∧
      IsLeast (resumptions (scan "x y while z ; w").1 2)
        (resynchronized.call .synchronize).2.position ∧
      (resynchronized.call .synchronize).2.position = 5 := by
  have hreached : Reached (scan "x y while z ; w").1 0 resynchronized :=
    .answer _ (.call .synchronize) .start
  have hposition : resynchronized.position = 2 := by decide +kernel
  obtain ⟨-, -, -, -, hleast⟩ := synchronize_isLeast hreached (by decide +kernel)
  rw [hposition] at hleast
  exact ⟨hposition, hleast (by decide +kernel), by decide +kernel⟩

end Session

end Parser

end Tricode
