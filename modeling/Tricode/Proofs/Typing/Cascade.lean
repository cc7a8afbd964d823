import Tricode.Proofs.Occurrence
import Tricode.Proofs.Typing.Inference

/-!
# One mistake, no further findings

When an expression in a clean program is replaced by one whose type cannot be found, the checker
reports what is wrong inside the new expression and nothing else (`analyze_fill`).

The two runs are followed side by side. In front of the place they do the same
(`Program.Hole.lead`). In the expressions around it the type stays what it was, or becomes unknown
(`Ty.Blurred`); every check lets an unknown type pass, so no finding is added (`infer_fill`).
Statements have no types, and typing changes no symbols, so behind the statement around the place
the runs are the same again (`check_fill`).
-/

namespace Tricode

/-- The second type is the first, or it is unknown. -/
def Ty.Blurred (t t' : Ty) : Prop :=
  t' = t ∨ t' = .unknown

namespace Typing

open Pass

/-! ### Checks let an unknown type pass -/

/-- What is `assignable` is so when its type is not known. -/
theorem assignable_blurred {expected t t' : Ty} (h : expected.assignable t = true)
    (ht : t.Blurred t') : expected.assignable t' = true := by
  rcases ht with rfl | rfl
  · exact h
  · simp [Ty.assignable]

theorem unaryType_blurred {op : String} {t t' u : Ty} {pos : Pos}
    (h : (unaryType op t pos).Yields () u ()) (ht : t.Blurred t') :
    ∃ u', (unaryType op t' pos).Yields () u' () ∧ u.Blurred u' := by
  rcases ht with rfl | rfl
  · exact ⟨u, h, .inl rfl⟩
  unfold unaryType at h ⊢
  by_cases hminus : (op == "-") = true
  · rw [if_pos hminus]
    exact ⟨.unknown, rfl, .inr rfl⟩
  rw [if_neg hminus] at h ⊢
  by_cases hnot : (op == "!") = true
  · rw [if_pos hnot] at h ⊢
    obtain ⟨-, rfl⟩ := require_pure_yields_iff.1 h
    exact ⟨.bool, rfl, .inl rfl⟩
  · rw [if_neg hnot] at h
    exact absurd h not_report_bind_yields

/-- With an operand of unknown type, `binaryType` is unknown, or the truth value that it is with all
operands. -/
theorem binaryType_unknown {op : String} {l r l' r' u : Ty} {pos : Pos}
    (h : (binaryType op l r pos).Yields () u ())
    (hunresolved : (l' == .unknown || r' == .unknown) = true) :
    ∃ u', (binaryType op l' r' pos).Yields () u' () ∧ u.Blurred u' := by
  unfold binaryType at h ⊢
  simp only [hunresolved, if_true, Bool.true_or] at h ⊢
  -- arithmetic gives an unknown type, and all the other operators a truth value
  by_cases harithmetic : arithmeticOps.contains op = true
  · rw [if_pos harithmetic]
    exact ⟨.unknown, rfl, .inr rfl⟩
  rw [if_neg harithmetic] at h ⊢
  by_cases hequality : equalityOps.contains op = true
  · rw [if_pos hequality] at h ⊢
    obtain ⟨-, rfl⟩ := require_pure_yields_iff.1 h
    exact ⟨.bool, rfl, .inl rfl⟩
  rw [if_neg hequality] at h ⊢
  by_cases horder : orderOps.contains op = true
  · rw [if_pos horder] at h ⊢
    obtain ⟨-, rfl⟩ := require_pure_yields_iff.1 h
    exact ⟨.bool, rfl, .inl rfl⟩
  rw [if_neg horder] at h ⊢
  by_cases hlogical : logicalOps.contains op = true
  · rw [if_pos hlogical] at h ⊢
    obtain ⟨-, rfl⟩ := require_pure_yields_iff.1 h
    exact ⟨.bool, rfl, .inl rfl⟩
  · rw [if_neg hlogical] at h
    exact absurd h not_report_bind_yields

theorem binaryType_blurred {op : String} {l l' r r' u : Ty} {pos : Pos}
    (h : (binaryType op l r pos).Yields () u ()) (hl : l.Blurred l') (hr : r.Blurred r') :
    ∃ u', (binaryType op l' r' pos).Yields () u' () ∧ u.Blurred u' := by
  rcases hl with rfl | rfl
  · rcases hr with rfl | rfl
    · exact ⟨u, h, .inl rfl⟩
    · exact binaryType_unknown h (by simp)
  · exact binaryType_unknown h (by simp)

theorem checkArguments_blurred {name : String} {index : Nat} {positions positions' : List Pos}
    {wanted types types' : List Ty} (hpositions : positions'.length = positions.length)
    (htypes : List.Forall₂ Ty.Blurred types types')
    (h : (checkArguments name index (positions.zip (wanted.zip types))).Yields () () ()) :
    (checkArguments name index (positions'.zip (wanted.zip types'))).Yields () () () := by
  -- by induction on the types of the arguments; wanted types and positions may run out before
  induction htypes generalizing index positions positions' wanted with
  | nil =>
    rw [List.zip_nil_right, List.zip_nil_right]
    rfl
  | @cons t t' types types' ht htypes ih =>
    cases wanted with
    | nil =>
      rw [List.zip_nil_left, List.zip_nil_right]
      rfl
    | cons w wanted =>
      cases positions with
      | nil =>
        obtain rfl : positions' = [] := List.eq_nil_of_length_eq_zero hpositions
        rfl
      | cons p positions =>
        obtain ⟨p', positions', rfl⟩ := List.exists_cons_of_length_eq_add_one hpositions
        obtain ⟨_, hfirst, hrest⟩ := inference_bind_yields_iff.1 h
        have hassignable := (require_yields_iff.1 hfirst).1
        refine inference_bind_yields_iff.2 ⟨(), require_yields_iff.2 ⟨?_, rfl⟩, ?_⟩
        · exact assignable_blurred hassignable ht
        · exact ih (Nat.add_right_cancel hpositions) hrest

/-- A call that passes in silence in `callType` passes with arguments whose types are not known. -/
theorem callType_blurred {name : String} {signature : Signature} {positions positions' : List Pos}
    {types types' : List Ty} {pos : Pos} {t : Ty}
    (hpositions : positions'.length = positions.length)
    (htypes : List.Forall₂ Ty.Blurred types types')
    (h : (callType name signature positions types pos).Yields () t ()) :
    (callType name signature positions' types' pos).Yields () t () := by
  unfold callType at h ⊢
  dsimp only at h ⊢
  rw [← htypes.length_eq]
  by_cases hlength : (types.length != (signature.params.map Param.type).length) = true
  · rw [if_pos hlength] at h
    exact absurd h not_report_bind_yields
  · rw [if_neg hlength] at h ⊢
    obtain ⟨_, harguments, hresult⟩ := inference_bind_yields_iff.1 h
    exact inference_bind_yields_iff.2
      ⟨(), checkArguments_blurred hpositions htypes harguments, hresult⟩

/-! ### Expressions around the place -/

variable {e s : Expr} {found : List (Finding TypingCause)}

/-- Among expressions typed from left to right, one is replaced. -/
theorem inferAll_fill {table : SymbolTable} {n n' : Node} {after : List Node}
    (hn : ∀ t, (infer table n).Yields () t () →
      ∃ t', infer table n' () = ⟨.ok t', found, ()⟩ ∧ t.Blurred t') (before : List Node) :
    ∀ {ts : List Ty}, (inferAll table (before ++ n :: after)).Yields () ts () →
      ∃ ts', inferAll table (before ++ n' :: after) () = ⟨.ok ts', found, ()⟩ ∧
        List.Forall₂ Ty.Blurred ts ts' := by
  induction before with
  | nil =>
    intro ts h
    obtain ⟨t, ht, hrest⟩ := inference_bind_yields_iff.1 h
    obtain ⟨us, hus, hpure⟩ := inference_bind_yields_iff.1 hrest
    obtain ⟨rfl, -⟩ := yields_pure_iff.1 hpure
    obtain ⟨t', hrun, ht'⟩ := hn t ht
    have hsame : List.Forall₂ Ty.Blurred us us := List.forall₂_same.2 fun _ _ => .inl rfl
    refine ⟨t' :: us, bind_eq_of_silent hrun ?_, .cons ht' hsame⟩
    exact inference_bind_yields_iff.2 ⟨us, hus, rfl⟩
  | cons b before ih =>
    intro ts h
    obtain ⟨t, ht, hrest⟩ := inference_bind_yields_iff.1 h
    obtain ⟨us, hus, hpure⟩ := inference_bind_yields_iff.1 hrest
    obtain ⟨rfl, -⟩ := yields_pure_iff.1 hpure
    obtain ⟨us', hrun, hus'⟩ := ih hus
    -- in front of the new expression nothing is reported
    refine ⟨t :: us', ?_, .cons (.inl rfl) hus'⟩
    exact ht.bind_apply.trans (bind_eq_of_silent hrun rfl)

/-- `infer` types the expression around the place with the findings of the new expression alone. -/
theorem infer_fill {table : SymbolTable} (hs : infer table s.toNode () = ⟨.ok .unknown, found, ()⟩)
    (h : Expr.Hole) : ∀ t, (infer table (h.fill e).toNode).Yields () t () →
      ∃ t', infer table (h.fill s).toNode () = ⟨.ok t', found, ()⟩ ∧ t.Blurred t' := by
  induction h with
  | here => exact fun t _ => ⟨.unknown, hs, .inr rfl⟩
  | unary op h pos ih =>
    intro u he
    obtain ⟨t, ht, hop⟩ := inference_bind_yields_iff.1 he
    obtain ⟨t', hrun, ht'⟩ := ih t ht
    obtain ⟨u', hu, hu'⟩ := unaryType_blurred hop ht'
    exact ⟨u', bind_eq_of_silent hrun hu, hu'⟩
  | left op h r pos ih =>
    intro u he
    obtain ⟨t, ht, hrest⟩ := inference_bind_yields_iff.1 he
    obtain ⟨v, hv, hop⟩ := inference_bind_yields_iff.1 hrest
    obtain ⟨t', hrun, ht'⟩ := ih t ht
    obtain ⟨u', hu, hu'⟩ := binaryType_blurred hop ht' (.inl rfl)
    exact ⟨u', bind_eq_of_silent hrun (inference_bind_yields_iff.2 ⟨v, hv, hu⟩), hu'⟩
  | right op l h pos ih =>
    intro u he
    obtain ⟨t, ht, hrest⟩ := inference_bind_yields_iff.1 he
    obtain ⟨v, hv, hop⟩ := inference_bind_yields_iff.1 hrest
    obtain ⟨v', hrun, hv'⟩ := ih v hv
    obtain ⟨u', hu, hu'⟩ := binaryType_blurred hop (.inl rfl) hv'
    exact ⟨u', ht.bind_apply.trans (bind_eq_of_silent hrun hu), hu'⟩
  | arg f before h after pos ih =>
    intro u he
    obtain ⟨target?, htarget, hrest⟩ := inference_bind_yields_iff.1 he
    obtain ⟨ts, hts, hcall⟩ := inference_bind_yields_iff.1 hrest
    rw [Expr.toNodes_eq_map, List.map_append, List.map_cons] at hts
    obtain ⟨ts', hrun, hts'⟩ := inferAll_fill ih _ hts
    rw [← List.map_cons, ← List.map_append, ← Expr.toNodes_eq_map] at hrun
    -- the new argument may stand elsewhere, but there are as many arguments as before
    have hpositions : ((Expr.toNodes (before ++ h.fill s :: after)).map Node.pos).length =
        ((Expr.toNodes (before ++ h.fill e :: after)).map Node.pos).length := by
      simp [Expr.toNodes_eq_map]
    refine ⟨u, htarget.bind_apply.trans (bind_eq_of_silent hrun ?_), .inl rfl⟩
    cases target? with
    | none => exact hcall
    | some target => exact callType_blurred hpositions hts' hcall
  | assign x h pos ih =>
    intro u he
    obtain ⟨name, hname, hrest⟩ := inference_bind_yields_iff.1 he
    obtain ⟨expected, hexpected, hrest⟩ := inference_bind_yields_iff.1 hrest
    obtain ⟨t, ht, hrequire⟩ := inference_bind_yields_iff.1 hrest
    obtain ⟨hassignable, rfl⟩ := require_pure_yields_iff.1 hrequire
    obtain ⟨t', hrun, ht'⟩ := ih t ht
    refine ⟨u, hname.bind_apply.trans (hexpected.bind_apply.trans (bind_eq_of_silent hrun ?_)),
      .inl rfl⟩
    exact require_pure_yields_iff.2 ⟨assignable_blurred hassignable ht', rfl⟩

end Typing

/-! ### The way to the place -/

open Typing in
mutual

/-- What the checker does with a statement until it comes to the open place. -/
def Stmt.Hole.lead : Stmt.Hole → Checker Unit
  | .expr _ _ => pure ()
  | .init t x _ pos => declare x t .var pos
  | .ifThenCond _ _ _ => pure ()
  | .ifThenBody c h _ => do
    checkCondition c.toNode .ifCondition
    h.lead
  | .ifElseCond _ _ _ _ => pure ()
  | .ifElseBody c h _ _ => do
    checkCondition c.toNode .ifCondition
    h.lead
  | .ifElseAlternative c b h _ => do
    checkCondition c.toNode .ifCondition
    discard (check b.toNode)
    h.lead
  | .loopCond _ _ _ => pure ()
  | .loopBody c h _ => do
    checkCondition c.toNode .whileCondition
    h.lead
  | .ret _ _ => pure ()

/-- What the checker does with a block until it comes to the open place. -/
def Block.Hole.lead : Block.Hole → Checker Unit
  | .mk before h _ _ => do
    checkAll (Stmt.toNodes before)
    h.lead

end

open Typing in
/-- What the checker does with a function until it comes to the open place. -/
def Function.Hole.lead (h : Function.Hole) : Checker Unit := do
  let scope ← declareFunction h.name ⟨h.params, h.result⟩ h.pos
  Pass.modify fun context => { context with table := context.table.openScope scope }
  Pass.modify fun context => { context with table.current := scope, returnType := h.result.given? }
  declareParams h.params
  h.body.lead

open Typing in
/-- What the checker does with a program until it comes to the open place. -/
def Program.Hole.lead (h : Program.Hole) : Checker Unit := do
  checkAll (h.before.map Function.toNode)
  h.function.lead

/-- What the checker knows when it comes to the open place. -/
def Program.Hole.reached (h : Program.Hole) : Typing.Context :=
  (h.lead .empty).state

namespace Typing

open Pass

variable {e s : Expr} {found : List (Finding TypingCause)}

/-! ### Statements around the place -/

/-- An expression around the place is typed, and then what passed in silence with its type passes in
silence with a `Blurred` one. -/
theorem typeOf_bind_fill {α : Type} (h : Expr.Hole) {f f' : Ty → Checker α} {a : α}
    {context context' : Context}
    (hs : infer context.table s.toNode () = ⟨.ok .unknown, found, ()⟩)
    (he : (typeOf (h.fill e).toNode >>= f).Yields context a context')
    (hf : ∀ t t', t.Blurred t' → (f t).Yields context a context' →
      (f' t').Yields context a context') :
    (typeOf (h.fill s).toNode >>= f') context = ⟨.ok a, found, context'⟩ := by
  obtain ⟨t, context₁, htype, hrest⟩ := yields_bind_iff.1 he
  rw [Yields, typeOf_apply, Outcome.mk.injEq] at htype
  obtain ⟨hvalue, hlog, rfl⟩ := htype
  obtain ⟨t', hrun, ht'⟩ := infer_fill hs h t (Outcome.eq_mk hvalue hlog rfl)
  have htype' : typeOf (h.fill s).toNode context = ⟨.ok t', found, context⟩ := by
    rw [typeOf_apply, hrun]
  exact bind_eq_of_silent htype' (hf t t' ht' hrest)

theorem checkCondition_fill (h : Expr.Hole) {cause : TypingCause} {context context' : Context}
    (hs : infer context.table s.toNode () = ⟨.ok .unknown, found, ()⟩)
    (he : (checkCondition (h.fill e).toNode cause).Yields context () context') :
    checkCondition (h.fill s).toNode cause context = ⟨.ok (), found, context'⟩ := by
  refine typeOf_bind_fill h hs he fun t t' ht' hrequire => ?_
  obtain ⟨hbool, rfl⟩ := require_yields_iff.1 hrequire
  refine require_yields_iff.2 ⟨?_, rfl⟩
  rcases ht' with rfl | rfl
  · exact hbool
  · rfl

/-- A value that is wanted with some type is replaced. -/
theorem typeOf_assignable_fill (h : Expr.Hole) {expected : Ty} {cause : Ty → TypingCause}
    {pos : Pos} {context context' : Context}
    (hs : infer context.table s.toNode () = ⟨.ok .unknown, found, ()⟩)
    (he : (typeOf (h.fill e).toNode >>= fun t =>
      require (expected.assignable t) (cause t) pos).Yields context () context') :
    (typeOf (h.fill s).toNode >>= fun t => require (expected.assignable t) (cause t) pos) context =
      ⟨.ok (), found, context'⟩ := by
  refine typeOf_bind_fill h hs he fun t t' ht' hrequire => ?_
  obtain ⟨hassignable, rfl⟩ := require_yields_iff.1 hrequire
  exact require_yields_iff.2 ⟨assignable_blurred hassignable ht', rfl⟩

theorem checkReturn_fill (h : Expr.Hole) {pos : Pos} {context context' : Context}
    (hs : infer context.table s.toNode () = ⟨.ok .unknown, found, ()⟩)
    (he : (checkReturn (h.fill e).toNode pos).Yields context () context') :
    checkReturn (h.fill s).toNode pos context = ⟨.ok (), found, context'⟩ := by
  have hget : (Pass.get : Checker Context).Yields context context context := rfl
  rw [Yields, checkReturn, hget.bind_apply] at he
  rw [checkReturn, hget.bind_apply]
  cases hreturn : context.returnType with
  | none =>
    -- outside a function the old value would have been reported as well
    rw [hreturn] at he
    exact absurd he not_report_bind_yields
  | some expected =>
    simp only [hreturn, Expr.isAbsent_toNode, Bool.false_eq_true, if_false] at he ⊢
    exact typeOf_assignable_fill h hs he

/-- Among trees checked one behind the other, one is replaced. -/
theorem checkAll_fill {before after : List Node} {n n' : Node} {context context' : Context}
    (he : (checkAll (before ++ n :: after)).Yields context () context')
    (hn : ∀ {context₁ context₂ : Context} {t : Ty}, (checkAll before).Yields context () context₁ →
      (check n).Yields context₁ t context₂ → check n' context₁ = ⟨.ok t, found, context₂⟩) :
    checkAll (before ++ n' :: after) context = ⟨.ok (), found, context'⟩ := by
  rw [checkAll_append, checkAll, discard_bind] at he ⊢
  obtain ⟨_, context₁, hbefore, hrest⟩ := yields_bind_iff.1 he
  obtain ⟨t, context₂, hcheck, hafter⟩ := yields_bind_iff.1 hrest
  rw [hbefore.bind_apply]
  exact bind_eq_of_silent (hn hbefore hcheck) hafter

theorem check_init (t : Ty) (x : String) (init : Expr) (pos : Pos) :
    check (Stmt.declare t x (some init) pos).toNode = (do
      declare x t .var pos
      typeOf init.toNode >>= fun u => require (t.assignable u) (.cannotAssign u t) pos
      pure .void) := by
  rw [Stmt.toNode, check, Node.ofExpr?, init.isAbsent_toNode]
  simp only [bind_assoc]
  rfl

theorem check_ifThen (c : Expr) (b : Block) (pos : Pos) :
    check (Stmt.ifThen c b pos).toNode = (do
      checkCondition c.toNode .ifCondition
      let _ ← check b.toNode
      pure .void) := by
  rw [Stmt.toNode, check]
  simp only [discard_bind]
  rfl

theorem check_ifElse (c : Expr) (b a : Block) (pos : Pos) :
    check (Stmt.ifElse c b a pos).toNode = (do
      checkCondition c.toNode .ifCondition
      let _ ← check b.toNode
      let _ ← check a.toNode
      pure .void) := by
  rw [Stmt.toNode, check, a.isAbsent_toNode]
  simp only [Bool.false_eq_true, if_false, discard_bind]

theorem check_loop (c : Expr) (b : Block) (pos : Pos) :
    check (Stmt.loop c b pos).toNode = (do
      checkCondition c.toNode .whileCondition
      let _ ← check b.toNode
      pure .void) := by
  rw [Stmt.toNode, check]
  simp only [discard_bind]

mutual

/-- `check` passes the statement around the place with the findings of the new expression alone, and
it declares what it declared before. -/
theorem check_fill : ∀ (h : Stmt.Hole) {context context' : Context} {t : Ty},
    infer (h.lead context).state.table s.toNode () = ⟨.ok .unknown, found, ()⟩ →
    (check (h.fill e).toNode).Yields context t context' →
    check (h.fill s).toNode context = ⟨.ok t, found, context'⟩
  | .expr h pos, context, context', t, hs, he => by
    rw [Stmt.Hole.fill, Stmt.toNode, check, discard_bind] at he ⊢
    exact typeOf_bind_fill h hs he fun _ _ _ hpure => hpure
  | .init type x h pos, context, context', t, hs, he => by
    rw [Stmt.Hole.fill, check_init] at he ⊢
    obtain ⟨_, context₁, hdeclare, hrest⟩ := yields_bind_iff.1 he
    obtain ⟨_, context₂, hvalue, hpure⟩ := yields_bind_iff.1 hrest
    -- the variable is declared before its value is typed
    rw [Stmt.Hole.lead, hdeclare] at hs
    rw [hdeclare.bind_apply]
    exact bind_eq_of_silent (typeOf_assignable_fill h hs hvalue) hpure
  | .ifThenCond h b pos, context, context', t, hs, he => by
    rw [Stmt.Hole.fill, check_ifThen] at he ⊢
    obtain ⟨_, context₁, hcond, hrest⟩ := yields_bind_iff.1 he
    exact bind_eq_of_silent (checkCondition_fill h hs hcond) hrest
  | .ifThenBody c h pos, context, context', t, hs, he => by
    rw [Stmt.Hole.fill, check_ifThen] at he ⊢
    obtain ⟨_, context₁, hcond, hrest⟩ := yields_bind_iff.1 he
    obtain ⟨u, context₂, hbody, hpure⟩ := yields_bind_iff.1 hrest
    rw [Stmt.Hole.lead, hcond.bind_apply] at hs
    rw [hcond.bind_apply]
    exact bind_eq_of_silent (checkBlock_fill h hs hbody) hpure
  | .ifElseCond h b a pos, context, context', t, hs, he => by
    rw [Stmt.Hole.fill, check_ifElse] at he ⊢
    obtain ⟨_, context₁, hcond, hrest⟩ := yields_bind_iff.1 he
    exact bind_eq_of_silent (checkCondition_fill h hs hcond) hrest
  | .ifElseBody c h a pos, context, context', t, hs, he => by
    rw [Stmt.Hole.fill, check_ifElse] at he ⊢
    obtain ⟨_, context₁, hcond, hrest⟩ := yields_bind_iff.1 he
    obtain ⟨u, context₂, hbody, halternative⟩ := yields_bind_iff.1 hrest
    rw [Stmt.Hole.lead, hcond.bind_apply] at hs
    rw [hcond.bind_apply]
    exact bind_eq_of_silent (checkBlock_fill h hs hbody) halternative
  | .ifElseAlternative c b h pos, context, context', t, hs, he => by
    rw [Stmt.Hole.fill, check_ifElse] at he ⊢
    obtain ⟨_, context₁, hcond, hrest⟩ := yields_bind_iff.1 he
    obtain ⟨u, context₂, hbody, hrest⟩ := yields_bind_iff.1 hrest
    obtain ⟨v, context₃, halternative, hpure⟩ := yields_bind_iff.1 hrest
    rw [Stmt.Hole.lead, hcond.bind_apply, discard_bind, hbody.bind_apply] at hs
    rw [hcond.bind_apply, hbody.bind_apply]
    exact bind_eq_of_silent (checkBlock_fill h hs halternative) hpure
  | .loopCond h b pos, context, context', t, hs, he => by
    rw [Stmt.Hole.fill, check_loop] at he ⊢
    obtain ⟨_, context₁, hcond, hrest⟩ := yields_bind_iff.1 he
    exact bind_eq_of_silent (checkCondition_fill h hs hcond) hrest
  | .loopBody c h pos, context, context', t, hs, he => by
    rw [Stmt.Hole.fill, check_loop] at he ⊢
    obtain ⟨_, context₁, hcond, hrest⟩ := yields_bind_iff.1 he
    obtain ⟨u, context₂, hbody, hpure⟩ := yields_bind_iff.1 hrest
    rw [Stmt.Hole.lead, hcond.bind_apply] at hs
    rw [hcond.bind_apply]
    exact bind_eq_of_silent (checkBlock_fill h hs hbody) hpure
  | .ret h pos, context, context', t, hs, he => by
    obtain ⟨_, context₁, hreturn, hpure⟩ := yields_bind_iff.1 he
    exact bind_eq_of_silent (checkReturn_fill h hs hreturn) hpure

/-- `check` passes the block around the place with the findings of the new expression alone. -/
theorem checkBlock_fill : ∀ (h : Block.Hole) {context context' : Context} {t : Ty},
    infer (h.lead context).state.table s.toNode () = ⟨.ok .unknown, found, ()⟩ →
    (check (h.fill e).toNode).Yields context t context' →
    check (h.fill s).toNode context = ⟨.ok t, found, context'⟩
  | .mk before h after pos, context, context', t, hs, he => by
    rw [Block.Hole.fill, Block.toNode, check, Stmt.toNodes_eq_map, List.map_append, List.map_cons]
      at he ⊢
    obtain ⟨_, context₁, hstatements, hpure⟩ := yields_bind_iff.1 he
    refine bind_eq_of_silent (checkAll_fill hstatements fun hbefore hcheck => ?_) hpure
    rw [← Stmt.toNodes_eq_map] at hbefore
    rw [Block.Hole.lead, hbefore.bind_apply] at hs
    exact check_fill h hs hcheck

end

/-! ### The function and the program around the place -/

theorem check_function_fill (h : Function.Hole) {context context' : Context} {t : Ty}
    (hs : infer (h.lead context).state.table s.toNode () = ⟨.ok .unknown, found, ()⟩)
    (he : (check (h.fill e).toNode).Yields context t context') :
    check (h.fill s).toNode context = ⟨.ok t, found, context'⟩ := by
  rw [check_function_eq] at he ⊢
  obtain ⟨scope, context₁, hdeclare, henter⟩ := yields_bind_iff.1 he
  obtain ⟨_, context₂, hopen, hrest⟩ := yields_bind_iff.1 henter
  obtain ⟨_, context₃, hinside, hpure⟩ := yields_bind_iff.1 hrest
  obtain ⟨after, hbody, rfl⟩ := inFunction_yields_iff.1 hinside
  obtain ⟨_, context₄, hparams, hdiscard⟩ := yields_bind_iff.1 hbody
  obtain ⟨u, hcheck, -⟩ := yields_map_iff.1 hdiscard
  -- both runs come to the body with the parameters declared, in one and the same context
  have hlead : h.lead context = h.body.lead context₄ :=
    hdeclare.bind_apply.trans (hopen.bind_apply.trans hparams.bind_apply)
  rw [hlead] at hs
  have hbody' : (do
      declareParams h.params
      discard (check (h.body.fill s).toNode) : Checker Unit)
        { context₂ with table.current := scope, returnType := h.result.given? } =
          ⟨.ok (), found, after⟩ :=
    hparams.bind_apply.trans (discard_eq (checkBlock_fill h.body hs hcheck))
  exact hdeclare.bind_apply.trans (hopen.bind_apply.trans
    (bind_eq_of_silent (inFunction_apply context₂ hbody') hpure))

end Typing

/-- In a program without findings an expression is replaced by one whose type is `unknown` at the
place that is `reached`. Then the findings are those of the new expression, at the place where it
stands, and the symbols stay the same. -/
theorem analyze_fill (h : Program.Hole) (e s : Expr) (found : List (Finding TypingCause))
    (hclean : (analyze (h.fill e)).findings = [])
    (hs : Typing.infer h.reached.table s.toNode () = ⟨.ok .unknown, found, ()⟩) :
    (analyze (h.fill s)).findings = found ∧
      (analyze (h.fill s)).table = (analyze (h.fill e)).table ∧
      (analyze (h.fill s)).fault = none := by
  obtain ⟨context, he⟩ := (findings_eq_nil_iff_yields _).1 hclean
  have hrun : Typing.checkAll ((h.fill s).functions.map Function.toNode) .empty =
      ⟨.ok (), found, context⟩ := by
    rw [Program.Hole.fill, List.map_append, List.map_cons] at he ⊢
    refine Typing.checkAll_fill he fun hbefore hcheck => ?_
    rw [Program.Hole.reached, Program.Hole.lead, hbefore.bind_apply] at hs
    exact Typing.check_function_fill h.function hs hcheck
  rw [analyze_eq hrun, analyze_eq he]
  exact ⟨rfl, rfl, rfl⟩

/-- `int g(int a, bool b) { return a; } int f(int x) { while (true) { x = g(x + □, !true); } }` -/
def openArgument : Program.Hole where
  before := [⟨.int, "g", [⟨.int, "a", ⟨1, 7⟩⟩, ⟨.bool, "b", ⟨1, 14⟩⟩],
    .mk [.ret (some (.ident "a" ⟨1, 31⟩)) ⟨1, 24⟩] ⟨1, 22⟩, ⟨1, 1⟩⟩]
  function := ⟨.int, "f", [⟨.int, "x", ⟨2, 7⟩⟩],
    .mk [] (.loopBody (.literal .bool "true" ⟨2, 24⟩)
      (.mk [] (.expr (.assign "x" (.arg (.ident "g" ⟨2, 36⟩) []
        (.right "+" (.ident "x" ⟨2, 38⟩) .here ⟨2, 40⟩)
        [.unary "!" (.literal .bool "true" ⟨2, 46⟩) ⟨2, 45⟩] ⟨2, 36⟩) ⟨2, 32⟩) ⟨2, 32⟩) [] ⟨2, 30⟩)
      ⟨2, 17⟩) [] ⟨2, 14⟩, ⟨2, 1⟩⟩
  after := []
  pos := ⟨1, 1⟩

/-- In `openArgument`, two names that are not declared give two findings, and neither the sum nor
the call gives another. -/
theorem analyze_fill_openArgument :
    (analyze (openArgument.fill (.literal .int "1" ⟨2, 42⟩))).findings = [] ∧
      (analyze (openArgument.fill (.binary "*" (.ident "z" ⟨2, 42⟩)
        (.call (.ident "h" ⟨2, 46⟩) [] ⟨2, 46⟩) ⟨2, 44⟩))).findings =
          [⟨.undefinedIdentifier "z", ⟨2, 42⟩⟩, ⟨.undefinedFunction "h", ⟨2, 46⟩⟩] := by
  have hclean : (analyze (openArgument.fill (.literal .int "1" ⟨2, 42⟩))).findings = [] := by
    decide +kernel
  exact ⟨hclean, (analyze_fill openArgument _ _ _ hclean (by rfl)).1⟩

end Tricode
