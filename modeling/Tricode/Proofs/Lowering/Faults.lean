import Tricode.Proofs.Lowering.Code

/-!
# What cannot be lowered

Lowering looks for the name of what is called, and only a name has one. It fails exactly on the
programs in which something else is called, at any depth, and then for want of a name
(`generate_cases`).

Where something else than a name is called, what is called may hold calls of its own
(`Expr.subterms`). They are never reached, and they are not needed to tell that lowering fails
(`Expr.callsNames_iff`).
-/

namespace Tricode

/-! ### Calls of names -/

namespace Expr

mutual

/-- The expression and all expressions inside it, what is called included. -/
def subterms : Expr → List Expr
  | literal kind text pos => [literal kind text pos]
  | ident x pos => [ident x pos]
  | unary op e pos => unary op e pos :: e.subterms
  | binary op l r pos => binary op l r pos :: (l.subterms ++ r.subterms)
  | call f args pos => call f args pos :: (f.subterms ++ subtermsAll args)
  | assign x e pos => assign x e pos :: e.subterms

/-- The expressions and all expressions inside them, what is called included. -/
def subtermsAll : List Expr → List Expr
  | [] => []
  | e :: es => e.subterms ++ subtermsAll es

end

theorem callsNames_unary_iff {op : String} {e : Expr} {pos : Pos} :
    (unary op e pos).CallsNames ↔ e.CallsNames :=
  List.forall_mem_cons.trans (and_iff_right trivial)

theorem callsNames_binary_iff {op : String} {l r : Expr} {pos : Pos} :
    (binary op l r pos).CallsNames ↔ l.CallsNames ∧ r.CallsNames := by
  refine (List.forall_mem_cons.trans (and_iff_right trivial)).trans ?_
  rw [List.forall_mem_append]
  rfl

/-- A call `CallsNames` if the callee is a name and only names are called in the arguments. -/
theorem callsNames_call_iff {f : Expr} {args : List Expr} {pos : Pos} :
    (call f args pos).CallsNames ↔
      (∃ x p, f = ident x p) ∧ ∀ part ∈ partsAll args, part.CallsName :=
  List.forall_mem_cons

theorem callsNames_assign_iff {x : String} {e : Expr} {pos : Pos} :
    (assign x e pos).CallsNames ↔ e.CallsNames :=
  List.forall_mem_cons.trans (and_iff_right trivial)

mutual

/-- Where an expression `CallsNames` in its evaluated parts, only names are called anywhere in
it. -/
theorem callsNames_iff : ∀ e : Expr, e.CallsNames ↔ ∀ t ∈ e.subterms, t.CallsName
  | literal .. => Iff.rfl
  | ident .. => Iff.rfl
  | unary op e pos => by
    rw [callsNames_unary_iff, callsNames_iff e, subterms, List.forall_mem_cons]
    exact (and_iff_right trivial).symm
  | binary op l r pos => by
    rw [callsNames_binary_iff, callsNames_iff l, callsNames_iff r, subterms, List.forall_mem_cons,
      List.forall_mem_append]
    exact (and_iff_right trivial).symm
  | call f args pos => by
    rw [callsNames_call_iff, forall_partsAll_callsName_iff args, subterms, List.forall_mem_cons,
      List.forall_mem_append]
    -- a name that is called holds no calls
    refine and_congr_right fun hname => (and_iff_right ?_).symm
    obtain ⟨x, p, rfl⟩ := hname
    exact List.forall_mem_singleton.2 trivial
  | assign x e pos => by
    rw [callsNames_assign_iff, callsNames_iff e, subterms, List.forall_mem_cons]
    exact (and_iff_right trivial).symm

theorem forall_partsAll_callsName_iff : ∀ es : List Expr,
    (∀ part ∈ partsAll es, part.CallsName) ↔ ∀ t ∈ subtermsAll es, t.CallsName
  | [] => Iff.rfl
  | e :: es => by
    rw [partsAll, subtermsAll, List.forall_mem_append, List.forall_mem_append,
      ← callsNames_iff e, ← forall_partsAll_callsName_iff es]
    rfl

end

/-- An expression that does not `CallsName` is a call of something else. -/
theorem not_callsName_iff {e : Expr} :
    ¬ e.CallsName ↔ ∃ f args pos, e = call f args pos ∧ ∀ x p, f ≠ ident x p := by
  cases e with
  | call f args pos =>
    constructor
    · intro h
      exact ⟨f, args, pos, rfl, fun x p hf => h ⟨x, p, hf⟩⟩
    · rintro ⟨_, _, _, heq, hne⟩ ⟨x, p, rfl⟩
      obtain ⟨rfl, -, -⟩ := call.inj heq
      exact hne x p rfl
  | _ => exact ⟨fun h => absurd trivial h, fun ⟨_, _, _, heq, _⟩ => by cases heq⟩

end Expr

/-! ### Expressions -/

/-- A name was wanted of a node that has none. -/
def Fault.Nameless (fault : Fault) : Prop :=
  ∃ kind, fault = .nameless (some kind)

namespace Lowering

open Pass

theorem succeedsIff_pure {α : Type} (a : α) :
    (pure a : Lowering α).SucceedsIff Fault.Nameless True :=
  succeedsIff_of_ok fun _ => ⟨a, rfl⟩

theorem succeedsIff_emit (i : Instr) : (emit i).SucceedsIff Fault.Nameless True :=
  succeedsIff_of_ok fun _ => ⟨(), rfl⟩

theorem succeedsIff_emit_pure {α : Type} (i : Instr) (a : α) :
    (emit i >>= fun _ => pure a : Lowering α).SucceedsIff Fault.Nameless True :=
  succeedsIff_of_ok fun _ => ⟨a, rfl⟩

theorem succeedsIff_newTemp : newTemp.SucceedsIff Fault.Nameless True :=
  succeedsIff_of_ok fun c => ⟨c.temps, rfl⟩

theorem succeedsIff_newLabel : newLabel.SucceedsIff Fault.Nameless True :=
  succeedsIff_of_ok fun c => ⟨c.labels, rfl⟩

/-- `emitParams` always succeeds. -/
theorem succeedsIff_emitParams (operands : List String) :
    (emitParams operands).SucceedsIff Fault.Nameless True :=
  succeedsIff_of_ok fun c => ⟨(), by rw [emitParams_apply]⟩

/-- Among expressions only a name has a name. -/
theorem succeedsIff_name (f : Expr) :
    (ofExcept f.toNode.name : Lowering String).SucceedsIff Fault.Nameless
    (∃ x p, f = .ident x p) := by
  intro c
  cases f with
  | ident x p => exact ⟨iff_of_true ⟨x, rfl⟩ ⟨x, p, rfl⟩, nofun⟩
  | _ =>
    refine ⟨iff_of_false nofun nofun, fun fault hfault => ?_⟩
    obtain rfl := Except.error.inj hfault
    exact ⟨_, rfl⟩

mutual

/-- `lowerExpr` succeeds exactly if the expression `CallsNames`. -/
theorem succeedsIff_lowerExpr : ∀ e : Expr,
    (lowerExpr e.toNode).SucceedsIff Fault.Nameless e.CallsNames
  | .literal kind text pos =>
    (succeedsIff_pure text).congr (iff_of_true trivial (List.forall_mem_singleton.2 trivial))
  | .ident x pos =>
    (succeedsIff_pure x).congr (iff_of_true trivial (List.forall_mem_singleton.2 trivial))
  | .unary op e pos => by
    rw [Expr.callsNames_unary_iff]
    exact (succeedsIff_lowerExpr e).bind_ok fun _ => succeedsIff_newTemp.bind_ok fun _ =>
      succeedsIff_emit_pure _ _
  | .binary op l r pos => by
    rw [Expr.callsNames_binary_iff]
    exact (succeedsIff_lowerExpr l).bind fun _ => (succeedsIff_lowerExpr r).bind_ok fun _ =>
      succeedsIff_newTemp.bind_ok fun _ => succeedsIff_emit_pure _ _
  | .call f args pos => by
    -- the arguments come first, and the name is looked at behind them
    rw [Expr.callsNames_call_iff, and_comm]
    exact (succeedsIff_lowerArgs args).bind fun operands =>
      (succeedsIff_emitParams operands).ok_bind fun _ => succeedsIff_newTemp.ok_bind fun _ =>
        (succeedsIff_name f).bind_ok fun _ => succeedsIff_emit_pure _ _
  | .assign x e pos => by
    rw [Expr.callsNames_assign_iff]
    exact (succeedsIff_lowerExpr e).bind_ok fun _ => succeedsIff_emit_pure _ _

/-- `lowerArgs` succeeds exactly if only names are called in the arguments. -/
theorem succeedsIff_lowerArgs : ∀ es : List Expr,
    (lowerArgs (Expr.toNodes es)).SucceedsIff Fault.Nameless
      (∀ part ∈ Expr.partsAll es, part.CallsName)
  | [] => (succeedsIff_pure []).congr (iff_of_true trivial (by simp [Expr.partsAll]))
  | e :: es => by
    rw [Expr.partsAll, List.forall_mem_append]
    exact (succeedsIff_lowerExpr e).bind fun _ => (succeedsIff_lowerArgs es).bind_ok fun _ =>
      succeedsIff_pure _

end

/-! ### Statements -/

mutual

/-- `lower` succeeds for a statement exactly if only names are called in its expressions. -/
theorem succeedsIff_lower : ∀ s : Stmt,
    (lower s.toNode).SucceedsIff Fault.Nameless (∀ e ∈ s.exprs, e.CallsNames)
  | .expr e pos => by
    rw [Stmt.exprs, List.forall_mem_singleton]
    exact (succeedsIff_lowerExpr e).bind_ok fun _ => succeedsIff_pure _
  | .declare t x none pos => (succeedsIff_emit _).congr (iff_of_true trivial (by simp [Stmt.exprs]))
  | .declare t x (some e) pos => by
    rw [Stmt.exprs, Option.toList_some, List.forall_mem_singleton, Stmt.toNode, lower, Node.ofExpr?,
      e.isAbsent_toNode]
    exact (succeedsIff_lowerExpr e).bind_ok fun _ => succeedsIff_emit _
  | .ifThen c b pos => by
    rw [Stmt.exprs, List.forall_mem_cons]
    exact (succeedsIff_lowerExpr c).bind fun _ => succeedsIff_newLabel.ok_bind fun _ =>
      (succeedsIff_emit _).ok_bind fun _ => (succeedsIff_lower_block b).bind_ok fun _ =>
        succeedsIff_emit _
  | .ifElse c b a pos => by
    -- labels and jumps never fail, so only the condition and the blocks count
    rw [Stmt.exprs, List.forall_mem_cons, List.forall_mem_append, Stmt.toNode, lower,
      a.isAbsent_toNode]
    exact (succeedsIff_lowerExpr c).bind fun _ => succeedsIff_newLabel.ok_bind fun _ =>
      succeedsIff_newLabel.ok_bind fun _ => (succeedsIff_emit _).ok_bind fun _ =>
        (succeedsIff_lower_block b).bind fun _ => (succeedsIff_emit _).ok_bind fun _ =>
          (succeedsIff_emit _).ok_bind fun _ => (succeedsIff_lower_block a).bind_ok fun _ =>
            succeedsIff_emit _
  | .loop c b pos => by
    rw [Stmt.exprs, List.forall_mem_cons]
    exact succeedsIff_newLabel.ok_bind fun _ => succeedsIff_newLabel.ok_bind fun _ =>
      (succeedsIff_emit _).ok_bind fun _ => (succeedsIff_lowerExpr c).bind fun _ =>
        (succeedsIff_emit _).ok_bind fun _ => (succeedsIff_lower_block b).bind_ok fun _ =>
          (succeedsIff_emit _).ok_bind fun _ => succeedsIff_emit _
  | .ret none pos => (succeedsIff_emit _).congr (iff_of_true trivial (by simp [Stmt.exprs]))
  | .ret (some e) pos => by
    rw [Stmt.exprs, Option.toList_some, List.forall_mem_singleton, Stmt.toNode, lower, Node.ofExpr?,
      e.isAbsent_toNode]
    exact (succeedsIff_lowerExpr e).bind_ok fun _ => succeedsIff_emit _

/-- `lower` succeeds for a block exactly if only names are called in its expressions. -/
theorem succeedsIff_lower_block : ∀ b : Block,
    (lower b.toNode).SucceedsIff Fault.Nameless (∀ e ∈ b.exprs, e.CallsNames)
  | .mk ss _ => succeedsIff_lowerAll ss

theorem succeedsIff_lowerAll : ∀ ss : List Stmt,
    (lowerAll (Stmt.toNodes ss)).SucceedsIff Fault.Nameless (∀ e ∈ Stmt.exprsAll ss, e.CallsNames)
  | [] => (succeedsIff_pure ()).congr (iff_of_true trivial (by simp [Stmt.exprsAll]))
  | s :: ss => by
    rw [Stmt.exprsAll, List.forall_mem_append]
    exact (succeedsIff_lower s).bind fun _ => succeedsIff_lowerAll ss

end

/-! ### Programs -/

theorem succeedsIff_lower_function (f : Function) :
    (lower f.toNode).SucceedsIff Fault.Nameless (∀ e ∈ f.body.exprs, e.CallsNames) :=
  (succeedsIff_emit _).ok_bind fun _ => (succeedsIff_lower_block f.body).bind_ok fun _ =>
    succeedsIff_emit _

/-- `lowerAll` succeeds for functions exactly if only names are called in their expressions. -/
theorem succeedsIff_lowerAll_functions (fs : List Function) :
    (lowerAll (fs.map Function.toNode)).SucceedsIff Fault.Nameless
      (∀ f ∈ fs, ∀ e ∈ f.body.exprs, e.CallsNames) := by
  induction fs with
  | nil => exact (succeedsIff_pure ()).congr (iff_of_true trivial (by simp))
  | cons f fs ih =>
    rw [List.forall_mem_cons]
    exact (succeedsIff_lower_function f).bind fun _ => ih

end Lowering

/-- Whether `generate` gives `code` or a `Nameless` fault is told by the program: it gives code
exactly if only names are called. -/
theorem generate_cases (p : Program) :
    p.CallsNames ∧ (∃ code, generate p = .ok code) ∨
      ¬ p.CallsNames ∧ ∃ fault, generate p = .error fault ∧ fault.Nameless := by
  obtain ⟨hsucceeds, hfails⟩ := Lowering.succeedsIff_lowerAll_functions p.functions .zero
  -- the cases exclude each other, since lowering succeeds exactly if names are called
  cases hvalue : (Lowering.lower p.toNode .zero).value with
  | ok u =>
    left
    refine ⟨hsucceeds.1 ⟨u, hvalue⟩, (Lowering.lower p.toNode .zero).log, ?_⟩
    rw [generate, hvalue]
    rfl
  | error fault =>
    right
    refine ⟨fun hcalls => ?_, fault, ?_, hfails fault hvalue⟩
    · obtain ⟨u, hok⟩ := hsucceeds.2 hcalls
      exact absurd (hvalue.symm.trans hok) (by simp)
    · rw [generate, hvalue]
      rfl

end Tricode
