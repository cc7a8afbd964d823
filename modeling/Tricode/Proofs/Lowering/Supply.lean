import Tricode.Lowering.Session
import Tricode.Proofs.Lowering.Writes

/-!
# Numbers are drawn once

Lowering draws the numbers of its temporaries and labels from two counters, at different moments:
the temporary of an operation behind the code of its operands, the two labels of a loop in front of
everything else. A failure may leave a number behind that was drawn and never used. `Draws` tells
which numbers a run has drawn, in their order, whether they are used or not.

Whatever is asked of a session, the counters only grow, the code is only added to, no name is handed
out twice, and operations and calls compute their temporaries in the order of the numbers
(`Session.supply_only_grows`). A single pass has these properties if its parts have them
(`Orderly.bind`), and only where a temporary is drawn and computed the two have to be looked at
together (`orderly_compute`).
-/

namespace Tricode

theorem toList_labelName (n : Nat) : (labelName n).toList = 'L' :: Nat.toDigits 10 n := by
  simp [labelName, toString, Nat.repr_eq_ofList_toDigits]

/-- Different labels have different names, by `labelName`. -/
theorem labelName_injective : Function.Injective labelName := by
  intro n m h
  have hlists := congrArg String.toList h
  rw [toList_labelName, toList_labelName, List.cons.injEq] at hlists
  rw [← Nat.ofDigitChars_ten_toDigits (n := n), hlists.2, Nat.ofDigitChars_ten_toDigits]

namespace Lowering

open Pass

variable {α β : Type}

/-! ### What is drawn -/

/-- A number that has been drawn. -/
inductive Drawn where
  | temp (n : Nat)
  | label (n : Nat)

/-- The name that is handed out with a number. -/
def Drawn.name : Drawn → String
  | temp n => tempName n
  | label n => labelName n

/-- What is `Drawn` has a name of its own, be it a temporary or a label. -/
theorem Drawn.name_injective : Function.Injective Drawn.name := by
  -- the names of temporaries and labels differ in their first letter
  have hne : ∀ n m, tempName n ≠ labelName m := by
    intro n m h
    have hlists := congrArg String.toList h
    rw [toList_tempName, toList_labelName] at hlists
    exact absurd (List.cons.inj hlists).1 (by decide)
  intro d d' h
  cases d with
  | temp n =>
    cases d' with
    | temp m => exact congrArg temp (tempName_injective h)
    | label m => exact absurd h (hne n m)
  | label n =>
    cases d' with
    | temp m => exact absurd h.symm (hne m n)
    | label m => exact congrArg label (labelName_injective h)

/-- The pass, run from the counters, draws the numbers one after the other. A pass that fails has
drawn what it drew before. -/
inductive Draws : {α : Type} → Lowering α → Counters → List Drawn → Prop where
  | ofExcept {α : Type} (v : Except Fault α) (c : Counters) : Draws (Pass.ofExcept v) c []
  | emit (i : Instr) (c : Counters) : Draws (Lowering.emit i) c []
  | newTemp (c : Counters) : Draws Lowering.newTemp c [.temp c.temps]
  | newLabel (c : Counters) : Draws Lowering.newLabel c [.label c.labels]
  | bind {α β : Type} {m : Lowering α} {f : α → Lowering β} {c c' : Counters} {a : α}
    {log : List Instr} {ds ds' : List Drawn} (h : m c = ⟨.ok a, log, c'⟩) (first : Draws m c ds)
    (rest : Draws (f a) c' ds') : Draws (m >>= f) c (ds ++ ds')
  | stop {α β : Type} {m : Lowering α} {f : α → Lowering β} {c c' : Counters} {e : Fault}
    {log : List Instr} {ds : List Drawn} (h : m c = ⟨.error e, log, c'⟩) (first : Draws m c ds) :
    Draws (m >>= f) c ds

instance : LE Counters := ⟨fun c c' => c.temps ≤ c'.temps ∧ c.labels ≤ c'.labels⟩

theorem Counters.le_refl (c : Counters) : c ≤ c :=
  ⟨Nat.le_refl _, Nat.le_refl _⟩

/-- `Counters` that go on and on only grow. -/
theorem Counters.le_trans {c c' c'' : Counters} (h : c ≤ c') (h' : c' ≤ c'') : c ≤ c'' :=
  ⟨Nat.le_trans h.1 h'.1, Nat.le_trans h.2 h'.2⟩

/-- The number is drawn on the way from the counters `c` to the counters `c'`. -/
def Drawn.Between (c c' : Counters) : Drawn → Prop
  | temp n => c.temps ≤ n ∧ n < c'.temps
  | label n => c.labels ≤ n ∧ n < c'.labels

/-- What is `Drawn` on the way is drawn before some moment or behind it. -/
theorem Drawn.between_iff {c c' c'' : Counters} (h : c ≤ c') (h' : c' ≤ c'') {d : Drawn} :
    d.Between c c'' ↔ d.Between c c' ∨ d.Between c' c'' := by
  obtain ⟨htemps, hlabels⟩ := h
  obtain ⟨htemps', hlabels'⟩ := h'
  cases d with
  | temp n =>
    simp only [Between]
    omega
  | label n =>
    simp only [Between]
    omega

/-- What is `Drawn` before some moment is not drawn behind it. -/
theorem Drawn.Between.ne {c c' c'' : Counters} {d d' : Drawn} (h : d.Between c c')
    (h' : d'.Between c' c'') : d ≠ d' := by
  rintro rfl
  cases d with
  | temp n => exact absurd h'.1 (Nat.not_le_of_lt h.2)
  | label n => exact absurd h'.1 (Nat.not_le_of_lt h.2)

/-- The numbers are those between the counters `c` and the counters `c'`, each of them once. -/
structure Supplies (c : Counters) (ds : List Drawn) (c' : Counters) : Prop where
  grows : c ≤ c'
  mem_iff : ∀ d, d ∈ ds ↔ d.Between c c'
  nodup : ds.Nodup

theorem supplies_nil (c : Counters) : Supplies c [] c := by
  refine ⟨c.le_refl, fun d => iff_of_false List.not_mem_nil fun h => ?_, .nil⟩
  exact h.ne h rfl

/-- A counter `Supplies` a temporary and goes on by one. -/
theorem supplies_temp (c : Counters) : Supplies c [.temp c.temps] ⟨c.temps + 1, c.labels⟩ := by
  refine ⟨⟨Nat.le_succ _, Nat.le_refl _⟩, fun d => ?_, List.nodup_singleton _⟩
  rw [List.mem_singleton]
  cases d with
  | temp n =>
    simp only [Drawn.Between, Drawn.temp.injEq]
    omega
  | label n =>
    simp only [Drawn.Between, reduceCtorEq, false_iff]
    omega

/-- A counter `Supplies` a label and goes on by one. -/
theorem supplies_label (c : Counters) : Supplies c [.label c.labels] ⟨c.temps, c.labels + 1⟩ := by
  refine ⟨⟨Nat.le_refl _, Nat.le_succ _⟩, fun d => ?_, List.nodup_singleton _⟩
  rw [List.mem_singleton]
  cases d with
  | temp n =>
    simp only [Drawn.Between, reduceCtorEq, false_iff]
    omega
  | label n =>
    simp only [Drawn.Between, Drawn.label.injEq]
    omega

/-- What is `Drawn` first and what is drawn then is all that is drawn. -/
theorem Supplies.append {c c' c'' : Counters} {ds ds' : List Drawn} (h : Supplies c ds c')
    (h' : Supplies c' ds' c'') : Supplies c (ds ++ ds') c'' where
  grows := Counters.le_trans h.grows h'.grows
  mem_iff d := by rw [List.mem_append, h.mem_iff, h'.mem_iff, Drawn.between_iff h.grows h'.grows]
  nodup := List.nodup_append.2
    ⟨h.nodup, h'.nodup, fun d hd d' hd' => ((h.mem_iff d).1 hd).ne ((h'.mem_iff d').1 hd')⟩

/-- A run `Draws` the numbers that the `Counters` pass, and each of them once. -/
theorem Draws.supplies {m : Lowering α} {c : Counters} {ds : List Drawn} (h : Draws m c ds) :
    Supplies c ds (m c).state := by
  -- by induction on what was drawn: a failure keeps what was drawn before it
  induction h with
  | ofExcept v c => exact supplies_nil c
  | emit i c => exact supplies_nil c
  | newTemp c => exact supplies_temp c
  | newLabel c => exact supplies_label c
  | bind h _ _ ihfirst ihrest =>
    rw [h] at ihfirst
    rw [bind_of_ok h]
    exact ihfirst.append ihrest
  | stop h _ ih =>
    rw [h] at ih
    rw [bind_of_error h]
    exact ih

/-! ### Passes that are in order -/

/-- The numbers of the temporaries that instructions compute. -/
def results (code : List Instr) : List Nat :=
  code.filterMap Instr.result?

theorem results_append (code code' : List Instr) :
    results (code ++ code') = results code ++ results code' :=
  List.filterMap_append

/-- The instructions compute temporaries in the order of their numbers, from `k` on and below
`k'`. -/
structure Ascends (k : Nat) (code : List Instr) (k' : Nat) : Prop where
  sorted : (results code).Pairwise (· < ·)
  between : ∀ n ∈ results code, k ≤ n ∧ n < k'

/-- Code without results `Ascends` between any numbers. -/
theorem ascends_of_results {code : List Instr} (h : results code = []) (k k' : Nat) :
    Ascends k code k' := by
  refine ⟨?_, ?_⟩
  · rw [h]
    exact .nil
  · rw [h]
    exact List.forall_mem_nil _

/-- Pieces of `code` that ascend one behind the other. -/
theorem Ascends.append {k k' k'' : Nat} {code code' : List Instr} (h : Ascends k code k')
    (h' : Ascends k' code' k'') (hk : k ≤ k') (hk' : k' ≤ k'') : Ascends k (code ++ code') k'' := by
  refine ⟨?_, ?_⟩
  · rw [results_append, List.pairwise_append]
    refine ⟨h.sorted, h'.sorted, fun n hn n' hn' => ?_⟩
    exact Nat.lt_of_lt_of_le (h.between n hn).2 (h'.between n' hn').1
  · rw [results_append, List.forall_mem_append]
    refine ⟨fun n hn => ?_, fun n hn => ?_⟩
    · exact ⟨(h.between n hn).1, Nat.lt_of_lt_of_le (h.between n hn).2 hk'⟩
    · exact ⟨Nat.le_trans hk (h'.between n hn).1, (h'.between n hn).2⟩

/-- From all counters, the pass draws numbers, and what it emits computes temporaries in the order
of the numbers, each of them drawn on the way. -/
def Orderly (m : Lowering α) : Prop :=
  ∀ c, (∃ ds, Draws m c ds) ∧ Ascends c.temps (m c).log (m c).state.temps

/-- One pass behind the other is `Orderly` if both are. -/
theorem Orderly.bind {m : Lowering α} {f : α → Lowering β} (hm : Orderly m)
    (hf : ∀ a, Orderly (f a)) :
    Orderly (m >>= f) := by
  intro c
  obtain ⟨⟨ds, hds⟩, hascends⟩ := hm c
  have hgrows := hds.supplies.grows
  cases h : m c with
  | mk value log c' =>
    rw [h] at hascends hgrows
    -- if the first pass fails, its own draws remain
    cases value with
    | error e =>
      rw [bind_of_error h]
      exact ⟨⟨ds, .stop h hds⟩, hascends⟩
    | ok a =>
      obtain ⟨⟨ds', hds'⟩, hascends'⟩ := hf a c'
      rw [bind_of_ok h]
      exact ⟨⟨ds ++ ds', .bind h hds hds'⟩,
        hascends.append hascends' hgrows.1 hds'.supplies.grows.1⟩

theorem orderly_ofExcept (v : Except Fault α) : Orderly (Pass.ofExcept v) :=
  fun c => ⟨⟨[], .ofExcept v c⟩, ascends_of_results rfl _ _⟩

theorem orderly_pure (a : α) : Orderly (pure a) :=
  orderly_ofExcept (.ok a)

theorem orderly_fail (e : Fault) : Orderly (Pass.fail e : Lowering α) :=
  orderly_ofExcept (.error e)

theorem orderly_newTemp : Orderly newTemp :=
  fun c => ⟨⟨[.temp c.temps], .newTemp c⟩, ascends_of_results rfl _ _⟩

theorem orderly_newLabel : Orderly newLabel :=
  fun c => ⟨⟨[.label c.labels], .newLabel c⟩, ascends_of_results rfl _ _⟩

/-- To `emit` an instruction that computes no temporary is `Orderly`. -/
theorem orderly_emit {i : Instr} (h : i.result? = none) : Orderly (emit i) := by
  refine fun c => ⟨⟨[], .emit i c⟩, ascends_of_results ?_ _ _⟩
  exact List.filterMap_cons_none h

theorem Orderly.bind_pure {m : Lowering α} (hm : Orderly m) (b : β) :
    Orderly (m >>= fun _ => pure b) :=
  hm.bind fun _ => orderly_pure b

/-- To draw a temporary and compute it is `Orderly`, with a value in between that may be missing. -/
theorem orderly_compute (v : Except Fault α) (i : Nat → α → Instr)
    (hi : ∀ n a, (i n a).result? = some n) :
    Orderly (do
      let dest ← newTemp
      let a ← Pass.ofExcept v
      emit (i dest a)
      pure (tempName dest)) := by
  intro c
  have hdraws : ∀ a, Draws (do
      emit (i c.temps a)
      pure (tempName c.temps)) ⟨c.temps + 1, c.labels⟩ ([] ++ []) :=
    fun a => .bind rfl (.emit _ _) (.ofExcept (.ok _) _)
  -- without the value the temporary is drawn all the same, and nothing computes it
  cases v with
  | error e =>
    exact ⟨⟨_, .bind rfl (.newTemp c) (.stop rfl (.ofExcept (.error e) _))⟩,
      ascends_of_results rfl _ _⟩
  | ok a =>
    refine ⟨⟨_, .bind rfl (.newTemp c) (.bind rfl (.ofExcept (.ok a) _) (hdraws a))⟩, ?_⟩
    have hresults : results [i c.temps a] = [c.temps] := List.filterMap_cons_some (hi c.temps a)
    refine ⟨?_, ?_⟩
    · show (results [i c.temps a]).Pairwise _
      rw [hresults]
      exact List.pairwise_singleton _ _
    · show ∀ n ∈ results [i c.temps a], _
      rw [hresults]
      exact List.forall_mem_singleton.2 ⟨Nat.le_refl _, Nat.lt_succ_self _⟩

/-! ### Trees of any shape -/

theorem orderly_emitParams (operands : List String) : Orderly (emitParams operands) := by
  induction operands with
  | nil => exact orderly_pure ()
  | cons a as ih => exact (orderly_emit rfl).bind fun _ => ih

mutual

/-- Lowering a tree as an expression is `Orderly`, whatever the tree is. -/
theorem orderly_lowerExpr : ∀ n : Node, Orderly (lowerExpr n)
  | .literal _ text _ => orderly_pure text
  | .ident name _ => orderly_pure name
  | .unary op e _ =>
    (orderly_lowerExpr e).bind fun operand =>
      orderly_compute (.ok ()) (fun dest _ => .unary dest op operand) fun _ _ => rfl
  | .binary op l r _ =>
    (orderly_lowerExpr l).bind fun left => (orderly_lowerExpr r).bind fun right =>
      orderly_compute (.ok ()) (fun dest _ => .binary dest left op right) fun _ _ => rfl
  -- the callee is named behind the draw, so a call without a name has drawn its temporary
  | .call callee args _ =>
    (orderly_lowerArgs args).bind fun operands => (orderly_emitParams operands).bind fun _ =>
      orderly_compute callee.name (fun dest name => .call dest name operands.length) fun _ _ => rfl
  | .assign target e _ =>
    (orderly_lowerExpr e).bind fun _ => (orderly_ofExcept target.name).bind fun name =>
      (orderly_emit rfl).bind_pure name
  | .absent | .expr .. | .declare .. | .block .. | .conditional .. | .loop .. | .ret .. | .param ..
  | .params .. | .function .. | .program .. => orderly_fail _

theorem orderly_lowerArgs : ∀ ns : List Node, Orderly (lowerArgs ns)
  | [] => orderly_pure []
  | n :: ns =>
    (orderly_lowerExpr n).bind fun _ => (orderly_lowerArgs ns).bind fun _ => orderly_pure _

end

mutual

/-- Lowering a tree is `Orderly`, whatever the tree is. -/
theorem orderly_lower : ∀ n : Node, Orderly (lower n)
  | .program functions _ => orderly_lowerAll functions
  | .function _ name _ body _ =>
    (orderly_emit rfl).bind fun _ => (orderly_lower body).bind fun _ => orderly_emit rfl
  | .block statements _ => orderly_lowerAll statements
  | .declare _ name init _ => by
    rw [lower]
    split
    · exact orderly_emit rfl
    · exact (orderly_lowerExpr init).bind fun _ => orderly_emit rfl
  | .conditional cond body alternative _ => by
    rw [lower]
    refine (orderly_lowerExpr cond).bind fun _ => ?_
    split
    · exact orderly_newLabel.bind fun _ => (orderly_emit rfl).bind fun _ =>
        (orderly_lower body).bind fun _ => orderly_emit rfl
    · exact orderly_newLabel.bind fun _ => orderly_newLabel.bind fun _ =>
        (orderly_emit rfl).bind fun _ => (orderly_lower body).bind fun _ =>
          (orderly_emit rfl).bind fun _ => (orderly_emit rfl).bind fun _ =>
            (orderly_lower alternative).bind fun _ => orderly_emit rfl
  | .loop cond body _ =>
    orderly_newLabel.bind fun _ => orderly_newLabel.bind fun _ => (orderly_emit rfl).bind fun _ =>
      (orderly_lowerExpr cond).bind fun _ => (orderly_emit rfl).bind fun _ =>
        (orderly_lower body).bind fun _ => (orderly_emit rfl).bind fun _ => orderly_emit rfl
  | .ret value _ => by
    rw [lower]
    split
    · exact orderly_emit rfl
    · exact (orderly_lowerExpr value).bind fun _ => orderly_emit rfl
  | .expr e _ => (orderly_lowerExpr e).bind_pure ()
  -- other nodes are no statements
  | .absent | .literal .. | .ident .. | .unary .. | .binary .. | .call .. | .assign .. | .param ..
  | .params .. => orderly_fail _

theorem orderly_lowerAll : ∀ ns : List Node, Orderly (lowerAll ns)
  | [] => orderly_pure ()
  | n :: ns => (orderly_lower n).bind fun _ => orderly_lowerAll ns

end

/-! ### Sessions -/

/-- The pass that a call runs. -/
def Call.pass : Call → Lowering Answer
  | .generate n | .lower n => do
    Lowering.lower n
    pure .nothing
  | .lowerExpr n => do
    let operand ← Lowering.lowerExpr n
    pure (.text operand)
  | .newTemp => do
    let n ← Lowering.newTemp
    pure (.text (tempName n))
  | .newLabel => do
    let n ← Lowering.newLabel
    pure (.text (labelName n))
  | .emit line => do
    Lowering.emit (.verbatim line)
    pure .nothing

/-- The call starts afresh. -/
def Call.restarts : Call → Bool
  | .generate _ => true
  | _ => false

/-- Every call of a session is an `Orderly` pass. -/
theorem orderly_pass (c : Call) : Orderly c.pass := by
  cases c with
  | generate n => exact (orderly_lower n).bind_pure _
  | lower n => exact (orderly_lower n).bind_pure _
  | lowerExpr n => exact (orderly_lowerExpr n).bind fun _ => orderly_pure _
  | newTemp => exact orderly_newTemp.bind fun _ => orderly_pure _
  | newLabel => exact orderly_newLabel.bind fun _ => orderly_pure _
  | emit line => exact (orderly_emit rfl).bind_pure _

namespace Session

/-- A call that does not start afresh runs its `pass`. -/
theorem call_eq (s : Session) {c : Call} (h : c.restarts = false) : s.call c = s.run c.pass := by
  cases c with
  | generate n => cases h
  | _ => rfl

/-- Generating code is lowering in a `Session` before anything is emitted. -/
theorem call_generate (s : Session) (n : Node) :
    (s.call (.generate n)).2 = (Session.empty.run (Lowering.lower n)).2 :=
  rfl

/-- A session has come here by calls, in any order and with any answers. Since it was new, or since
code was generated last, they have drawn the numbers. -/
inductive Reached : List Drawn → Session → Prop where
  | empty : Reached [] Session.empty
  | generate {s : Session} {n : Node} {drawn : List Drawn}
    (draws : Draws (Lowering.lower n) .zero drawn) : Reached drawn (s.call (.generate n)).2
  | call {s : Session} {c : Call} {drawn new : List Drawn} (earlier : Reached drawn s)
    (hc : c.restarts = false) (draws : Draws c.pass s.counters new) :
    Reached (drawn ++ new) (s.call c).2

/-- What a pass `Draws` and emits follows on what there is. -/
theorem supplies_run {s : Session} {drawn new : List Drawn}
    (hsupplies : Supplies .zero drawn s.counters)
    (hascends : Ascends 0 s.code s.counters.temps) {m : Lowering α} (hm : Orderly m)
    (hdraws : Draws m s.counters new) :
    Supplies .zero (drawn ++ new) (s.run m).2.counters ∧
      Ascends 0 (s.run m).2.code (s.run m).2.counters.temps := by
  have hnew := hdraws.supplies
  exact ⟨hsupplies.append hnew, hascends.append (hm s.counters).2 (Nat.zero_le _) hnew.grows.1⟩

/-- In a `Session` that was `Reached`, what was `Drawn` is what the counters have passed, and the
code `Ascends`. -/
theorem Reached.supplies {drawn : List Drawn} {s : Session} (h : Reached drawn s) :
    Supplies .zero drawn s.counters ∧ Ascends 0 s.code s.counters.temps := by
  -- by induction on how the session was reached; generating code begins at zero
  induction h with
  | empty => exact ⟨supplies_nil _, ascends_of_results rfl _ _⟩
  | @generate s n drawn draws =>
    rw [call_generate]
    exact supplies_run (s := Session.empty) (supplies_nil _) (ascends_of_results rfl _ _)
      (orderly_lower n) draws
  | @call s c drawn new _ hc draws ih =>
    rw [call_eq s hc]
    exact supplies_run ih.1 ih.2 (orderly_pass c) draws

/-- Whatever has been asked of a `Session`, and whether it failed or not, the names that were handed
out are different from each other, and they are all names below the counters; operations and calls
have computed their temporaries in the order of the numbers. A further `call` adds to the `code`,
does not set a counter back, and hands out more names, unless it `restarts`, and then the names are
those that it hands out itself. -/
theorem supply_only_grows {drawn : List Drawn} {s : Session} (h : Reached drawn s) :
    (drawn.map Drawn.name).Nodup ∧ (∀ d, d ∈ drawn ↔ d.Between .zero s.counters) ∧
      (results s.code).Pairwise (· < ·) ∧
      (∀ c : Call, c.restarts = false →
        s.code <+: (s.call c).2.code ∧ s.counters ≤ (s.call c).2.counters ∧
          ∃ new, Reached (drawn ++ new) (s.call c).2) ∧
      ∀ n, ∃ new, Reached new (s.call (.generate n)).2 := by
  obtain ⟨hsupplies, hascends⟩ := h.supplies
  refine ⟨hsupplies.nodup.map Drawn.name_injective, hsupplies.mem_iff, hascends.sorted,
    fun c hc => ?_, fun n => ?_⟩
  -- also a call that fails has drawn what it drew up to there
  · obtain ⟨⟨new, hdraws⟩, -⟩ := orderly_pass c s.counters
    refine ⟨?_, ?_, new, .call h hc hdraws⟩
    · rw [call_eq s hc]
      exact List.prefix_append _ _
    · rw [call_eq s hc]
      exact hdraws.supplies.grows
  · obtain ⟨⟨new, hdraws⟩, -⟩ := orderly_lower n .zero
    exact ⟨new, .generate hdraws⟩

/-- `5(1 + 2)`: the argument is passed before it is seen that a literal has no name. -/
def callOfLiteral : Node :=
  .call (.literal .int "5" ⟨1, 1⟩)
    [.binary "+" (.literal .int "1" ⟨1, 3⟩) (.literal .int "2" ⟨1, 7⟩) ⟨1, 5⟩] ⟨1, 1⟩

/-- A loop whose condition is missing. -/
def loopWithoutCondition : Node :=
  .loop .absent (.block [] ⟨2, 1⟩) ⟨2, 1⟩

/-- A session in which two calls have failed, and a sum was lowered behind them. -/
def stumbling : Session :=
  ((((Session.empty.call (.lowerExpr callOfLiteral)).2.call (.lower loopWithoutCondition)).2.call
    .newTemp).2.call (.lowerExpr (.binary "+" (.ident "a" ⟨3, 1⟩) (.ident "b" ⟨3, 5⟩) ⟨3, 3⟩))).2

/-- The temporary of the failed call and the second label of the failed loop are never used, and
never handed out again. -/
theorem supply_only_grows_stumbling :
    stumbling.code.map Instr.line = ["t0 = 1 + 2", "PARAM t0", "L0:", "t3 = a + b"] ∧
      (results stumbling.code).Pairwise (· < ·) ∧
      ∃ drawn, Reached drawn stumbling ∧ (drawn.map Drawn.name).Nodup ∧
        Drawn.temp 1 ∈ drawn ∧ Drawn.label 1 ∈ drawn := by
  obtain ⟨-, -, -, hfirst, -⟩ := supply_only_grows .empty
  obtain ⟨-, -, _, hfirst⟩ := hfirst (.lowerExpr callOfLiteral) rfl
  obtain ⟨-, -, -, hsecond, -⟩ := supply_only_grows hfirst
  obtain ⟨-, -, _, hsecond⟩ := hsecond (.lower loopWithoutCondition) rfl
  obtain ⟨-, -, -, hthird, -⟩ := supply_only_grows hsecond
  obtain ⟨-, -, _, hthird⟩ := hthird .newTemp rfl
  obtain ⟨-, -, -, hfourth, -⟩ := supply_only_grows hthird
  obtain ⟨-, -, drawn, hreached⟩ := hfourth (.lowerExpr (.binary "+" (.ident "a" ⟨3, 1⟩)
    (.ident "b" ⟨3, 5⟩) ⟨3, 3⟩)) rfl
  obtain ⟨hnodup, hmem, hsorted, -, -⟩ := supply_only_grows hreached
  exact ⟨by decide +kernel, hsorted, _, hreached, hnodup,
    (hmem _).2 ⟨by decide +kernel, by decide +kernel⟩,
    (hmem _).2 ⟨by decide +kernel, by decide +kernel⟩⟩

end Session

end Lowering

end Tricode
