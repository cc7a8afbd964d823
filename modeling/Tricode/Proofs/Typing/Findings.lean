import Tricode.Proofs.Parser.Shape
import Tricode.Proofs.Typing.Resolution

/-!
# What the checker reports

Everything that the checker reports is about a piece of the program, and stands where that piece
stands: an expression is blamed for its own operands (`Expr.Accuses`), a statement for what it
declares and for its conditions (`Stmt.Blames`), a function for its name and its parameters. There
are no other findings (`blames_of_mem_findings`), whatever the symbol table holds.

In particular no operator is reported as unknown in a program whose operations are those of the
language (`operatorKnown_of_mem_findings`), and these are all operations that the parser gives
(`shaped_parse`).
-/

namespace Tricode

/-- The findings that an expression by itself can give rise to, without those of its parts. -/
inductive Expr.Accuses : Expr → Finding TypingCause → Prop where
  | undefined (x : String) (p : Pos) : Accuses (.ident x p) ⟨.undefinedIdentifier x, p⟩
  | misused (x : String) (p : Pos) : Accuses (.ident x p) ⟨.functionAsVariable x, p⟩
  | minus {op : String} {e : Expr} {p : Pos} (t : Ty) : Accuses (.unary op e p) ⟨.minusOperand t, p⟩
  | not {op : String} {e : Expr} {p : Pos} (t : Ty) : Accuses (.unary op e p) ⟨.notOperand t, p⟩
  | unknownUnary {op : String} {e : Expr} {p : Pos} (h : op ∉ Typing.unaryOps) :
    Accuses (.unary op e p) ⟨.unknownUnary op, p⟩
  | arithmetic {op : String} {l r : Expr} {p : Pos} (t u : Ty) :
    Accuses (.binary op l r p) ⟨.arithmeticOperands t u, p⟩
  | equality {op : String} {l r : Expr} {p : Pos} (t u : Ty) :
    Accuses (.binary op l r p) ⟨.equalityOperands t u, p⟩
  | order {op : String} {l r : Expr} {p : Pos} (t u : Ty) :
    Accuses (.binary op l r p) ⟨.orderOperands t u, p⟩
  | logical {op : String} {l r : Expr} {p : Pos} (t u : Ty) :
    Accuses (.binary op l r p) ⟨.logicalOperands t u, p⟩
  | unknownBinary {op : String} {l r : Expr} {p : Pos} (h : op ∉ Typing.binaryOps) :
    Accuses (.binary op l r p) ⟨.unknownBinary op, p⟩
  | notCallable {f : Expr} {args : List Expr} {p : Pos} : Accuses (.call f args p) ⟨.notCallable, p⟩
  | undefinedFunction {x : String} {q : Pos} {args : List Expr} {p : Pos} :
    Accuses (.call (.ident x q) args p) ⟨.undefinedFunction x, q⟩
  | notAFunction {x : String} {q : Pos} {args : List Expr} {p : Pos} :
    Accuses (.call (.ident x q) args p) ⟨.notAFunction x, q⟩
  | argumentCount {f : Expr} {args : List Expr} {p : Pos} (name : String) (expected actual : Nat) :
    Accuses (.call f args p) ⟨.argumentCount name expected actual, p⟩
  | argumentType {f : Expr} {args : List Expr} {p : Pos} {arg : Expr} (h : arg ∈ args) (index : Nat)
    (name : String) (t u : Ty) : Accuses (.call f args p) ⟨.argumentType index name t u, arg.pos⟩
  | undefinedTarget {x : String} {e : Expr} {p : Pos} :
    Accuses (.assign x e p) ⟨.undefinedIdentifier x, p⟩
  | functionTarget {x : String} {e : Expr} {p : Pos} :
    Accuses (.assign x e p) ⟨.assignToFunction x, p⟩
  | cannotAssign {x : String} {e : Expr} {p : Pos} (t u : Ty) :
    Accuses (.assign x e p) ⟨.cannotAssign t u, p⟩

/-- The cause is one of those for which a return statement is reported. -/
def TypingCause.OfReturn : TypingCause → Prop
  | returnOutside => True
  | mustReturn _ => True
  | mustReturnGot _ _ => True
  | _ => False

/-- The findings about an expression and its parts. -/
def Expr.Blames (e : Expr) (found : Finding TypingCause) : Prop :=
  ∃ part ∈ e.parts, part.Accuses found

mutual

/-- The findings that a statement can give rise to. -/
def Stmt.Blames (found : Finding TypingCause) : Stmt → Prop
  | .expr e _ => e.Blames found
  | .declare t x init p =>
    found = ⟨.variableRedeclared x, p⟩ ∨ (∃ u, found = ⟨.cannotAssign u t, p⟩) ∨
      ∃ e ∈ init, e.Blames found
  | .ifThen c b _ => found = ⟨.ifCondition, c.pos⟩ ∨ c.Blames found ∨ b.Blames found
  | .ifElse c b a _ =>
    found = ⟨.ifCondition, c.pos⟩ ∨ c.Blames found ∨ b.Blames found ∨ a.Blames found
  | .loop c b _ => found = ⟨.whileCondition, c.pos⟩ ∨ c.Blames found ∨ b.Blames found
  | .ret value p =>
    (found.pos = p ∧ found.cause.OfReturn) ∨ ∃ e ∈ value, e.Blames found

/-- The findings that a block can give rise to. -/
def Block.Blames (found : Finding TypingCause) : Block → Prop
  | .mk ss _ => Stmt.BlamesAny found ss

/-- The findings that statements can give rise to. -/
def Stmt.BlamesAny (found : Finding TypingCause) : List Stmt → Prop
  | [] => False
  | s :: ss => s.Blames found ∨ Stmt.BlamesAny found ss

end

/-- The findings that a function can give rise to. -/
def Function.Blames (f : Function) (found : Finding TypingCause) : Prop :=
  found = ⟨.functionRedeclared f.name, f.pos⟩ ∨
    (∃ p ∈ f.params, found = ⟨.parameterRedeclared p.name, p.pos⟩) ∨ f.body.Blames found

theorem Expr.pos_toNode (e : Expr) : e.toNode.pos = e.pos := by
  cases e <;> rfl

namespace Typing

open Pass

variable {σ ε : Type} {P : Finding TypingCause → Prop}

theorem logs_report {cause : TypingCause} {pos : Pos} (h : P ⟨cause, pos⟩) :
    (report cause pos : Pass σ (Finding TypingCause) ε Unit).Logs P :=
  logs_write h

theorem logs_require {cause : TypingCause} {pos : Pos} (h : P ⟨cause, pos⟩) (holds : Bool) :
    (require holds cause pos : Pass σ (Finding TypingCause) ε Unit).Logs P := by
  unfold require
  split
  · exact logs_pure ()
  · exact logs_report h

/-! ### Expressions -/

section

variable {table : SymbolTable}

theorem logs_unaryType {op : String} {e : Expr} {pos : Pos}
    (h : ∀ found, (Expr.unary op e pos).Accuses found → P found) (t : Ty) :
    (unaryType op t pos).Logs P := by
  unfold unaryType
  split
  · exact (logs_require (h _ (.minus t)) _).bind fun _ => logs_pure _
  split
  · exact (logs_require (h _ (.not t)) _).bind fun _ => logs_pure _
  · next hminus hnot =>
    have hop : op ∉ unaryOps := by
      simp only [beq_iff_eq] at hminus hnot
      simp [unaryOps, hminus, hnot]
    exact (logs_report (h _ (.unknownUnary hop))).bind fun _ => logs_pure _

/-- What `binaryType` reports is what the operation `Accuses`. -/
theorem logs_binaryType {op : String} {l r : Expr} {pos : Pos}
    (h : ∀ found, (Expr.binary op l r pos).Accuses found → P found) (t u : Ty) :
    (binaryType op t u pos).Logs P := by
  unfold binaryType
  dsimp only
  split
  · split
    · exact logs_pure _
    · exact (logs_require (h _ (.arithmetic t u)) _).bind fun _ => logs_pure _
  split
  · exact (logs_require (h _ (.equality t u)) _).bind fun _ => logs_pure _
  split
  · exact (logs_require (h _ (.order t u)) _).bind fun _ => logs_pure _
  split
  · exact (logs_require (h _ (.logical t u)) _).bind fun _ => logs_pure _
  · next harithmetic hequality horder hlogical =>
    -- an operator that is in none of the four lists is unknown
    have hop : op ∉ binaryOps := by
      rw [List.contains_iff_mem] at harithmetic hequality horder hlogical
      simp [binaryOps, harithmetic, hequality, horder, hlogical]
    exact (logs_report (h _ (.unknownBinary hop))).bind fun _ => logs_pure _

/-- A name that stands for a value, or that is assigned. -/
theorem logs_variableType {x : String} {pos : Pos} {undefined misused : TypingCause}
    (hundefined : P ⟨undefined, pos⟩) (hmisused : P ⟨misused, pos⟩) :
    (variableType table x pos undefined misused).Logs P := by
  refine (logs_ofExcept _).bind fun symbol? => ?_
  split
  · exact (logs_report hundefined).bind fun _ => logs_pure _
  split
  · exact (logs_report hmisused).bind fun _ => logs_pure _
  · exact logs_pure _

theorem logs_calleeSignature {f : Expr} {args : List Expr} {pos : Pos}
    (h : ∀ found, (Expr.call f args pos).Accuses found → P found) :
    (calleeSignature table f.toNode pos).Logs P := by
  cases f with
  | ident x q =>
    refine (logs_ofExcept _).bind fun symbol? => ?_
    split
    · exact (logs_report (h _ .undefinedFunction)).bind fun _ => logs_pure _
    split
    · exact logs_pure _
    · exact (logs_report (h _ .notAFunction)).bind fun _ => logs_pure _
  | _ => exact (logs_report (h _ .notCallable)).bind fun _ => logs_pure _

theorem logs_checkArguments {name : String} (index : Nat) {args : List (Pos × Ty × Ty)}
    (h : ∀ arg ∈ args, ∀ index, P ⟨.argumentType index name arg.2.1 arg.2.2, arg.1⟩) :
    (checkArguments name index args).Logs P := by
  induction args generalizing index with
  | nil => exact logs_pure ()
  | cons arg args ih =>
    obtain ⟨harg, hargs⟩ := List.forall_mem_cons.1 h
    exact (logs_require (harg index) _).bind fun _ => ih (index + 1) hargs

theorem logs_callType {f : Expr} {args : List Expr} {pos : Pos}
    (h : ∀ found, (Expr.call f args pos).Accuses found → P found) (name : String)
    (signature : Signature) (types : List Ty) :
    (callType name signature ((Expr.toNodes args).map Node.pos) types pos).Logs P := by
  unfold callType
  dsimp only
  split
  · exact (logs_report (h _ (.argumentCount _ _ _))).bind fun _ => logs_pure _
  · refine (logs_checkArguments _ fun arg harg index => ?_).bind fun _ => logs_pure _
    -- an argument that does not fit is blamed where it stands
    have hpos : arg.1 ∈ (Expr.toNodes args).map Node.pos := (List.of_mem_zip harg).1
    rw [Expr.toNodes_eq_map, List.map_map] at hpos
    obtain ⟨e, he, hpos⟩ := List.mem_map.1 hpos
    rw [← hpos, Function.comp_apply, e.pos_toNode]
    exact h _ (.argumentType he ..)

mutual

/-- What `infer` reports is about one of the parts of the expression. -/
theorem logs_infer : ∀ e : Expr, (∀ found, e.Blames found → P found) →
    (infer table e.toNode).Logs P
  | .literal .., _ => logs_pure _
  | .ident x pos, h => by
    have hself := fun found hfound => h found ⟨_, List.mem_singleton_self _, hfound⟩
    rw [Expr.toNode, infer, nameType_eq]
    exact logs_variableType (hself _ (.undefined x pos)) (hself _ (.misused x pos))
  | .unary op e pos, h => by
    -- the expression is a part of itself, and the parts of an operand are parts of it
    have hself := fun found hfound => h found ⟨_, List.mem_cons_self, hfound⟩
    refine (logs_infer e fun found hfound => ?_).bind fun t => logs_unaryType hself t
    obtain ⟨part, hpart, hfound⟩ := hfound
    exact h found ⟨part, List.mem_cons_of_mem _ hpart, hfound⟩
  | .binary op l r pos, h => by
    have hself := fun found hfound => h found ⟨_, List.mem_cons_self, hfound⟩
    refine (logs_infer l fun found hfound => ?_).bind fun t =>
      (logs_infer r fun found hfound => ?_).bind fun u => logs_binaryType hself t u
    · obtain ⟨part, hpart, hfound⟩ := hfound
      exact h found ⟨part, List.mem_cons_of_mem _ (List.mem_append_left _ hpart), hfound⟩
    · obtain ⟨part, hpart, hfound⟩ := hfound
      exact h found ⟨part, List.mem_cons_of_mem _ (List.mem_append_right _ hpart), hfound⟩
  | .call f args pos, h => by
    have hself := fun found hfound => h found ⟨_, List.mem_cons_self, hfound⟩
    refine (logs_calleeSignature hself).bind fun target? =>
      (logs_inferAll args fun found hfound => ?_).bind fun types => ?_
    · obtain ⟨part, hpart, hfound⟩ := hfound
      exact h found ⟨part, List.mem_cons_of_mem _ hpart, hfound⟩
    · split
      · exact logs_callType hself _ _ _
      · exact logs_pure _
  | .assign x e pos, h => by
    have hself := fun found hfound => h found ⟨_, List.mem_cons_self, hfound⟩
    have htarget : (targetType table x pos).Logs P := by
      rw [targetType_eq]
      exact logs_variableType (hself _ .undefinedTarget) (hself _ .functionTarget)
    refine htarget.bind fun t => (logs_infer e fun found hfound => ?_).bind fun u =>
      (logs_require (hself _ (.cannotAssign u t)) _).bind fun _ => logs_pure _
    obtain ⟨part, hpart, hfound⟩ := hfound
    exact h found ⟨part, List.mem_cons_of_mem _ hpart, hfound⟩

theorem logs_inferAll : ∀ es : List Expr,
    (∀ found, (∃ part ∈ Expr.partsAll es, part.Accuses found) → P found) →
    (inferAll table (Expr.toNodes es)).Logs P
  | [], _ => logs_pure _
  | e :: es, h => by
    refine (logs_infer e fun found hfound => ?_).bind fun t =>
      (logs_inferAll es fun found hfound => ?_).bind fun ts => logs_pure _
    · obtain ⟨part, hpart, hfound⟩ := hfound
      exact h found ⟨part, List.mem_append_left _ hpart, hfound⟩
    · obtain ⟨part, hpart, hfound⟩ := hfound
      exact h found ⟨part, List.mem_append_right _ hpart, hfound⟩

end

end

/-! ### Statements -/

theorem logs_typeOf {e : Expr} (h : ∀ found, e.Blames found → P found) : (typeOf e.toNode).Logs P :=
  logs_get.bind fun _ => (logs_infer e h).lift

theorem logs_declare {x : String} {t : Ty} {role : Role} {pos : Pos}
    (h : P ⟨if role = .param then .parameterRedeclared x else .variableRedeclared x, pos⟩) :
    (declare x t role pos).Logs P := by
  refine logs_get.bind fun context => (logs_ofExcept _).bind fun scope => ?_
  split
  · exact logs_report h
  · exact logs_modify _

theorem logs_declareParams {ps : List Param}
    (h : ∀ p ∈ ps, P ⟨.parameterRedeclared p.name, p.pos⟩) :
    (declareParams ps).Logs P := by
  induction ps with
  | nil => exact logs_pure ()
  | cons p ps ih =>
    obtain ⟨hp, hps⟩ := List.forall_mem_cons.1 h
    exact (logs_declare hp).bind fun _ => ih hps

theorem logs_checkCondition {e : Expr} {cause : TypingCause} (h : P ⟨cause, e.pos⟩)
    (he : ∀ found, e.Blames found → P found) : (checkCondition e.toNode cause).Logs P := by
  refine (logs_typeOf he).bind fun _ => logs_require ?_ _
  rw [e.pos_toNode]
  exact h

/-- What `checkReturn` reports is about the statement or its value. -/
theorem logs_checkReturn {value : Option Expr} {pos : Pos}
    (h : ∀ cause : TypingCause, cause.OfReturn → P ⟨cause, pos⟩)
    (hvalue : ∀ e ∈ value, ∀ found, e.Blames found → P found) :
    (checkReturn (.ofExpr? value) pos).Logs P := by
  refine logs_get.bind fun context => ?_
  cases value with
  | none =>
    split
    · exact (logs_report (h _ (by trivial))).bind fun _ => logs_pure _
    · exact logs_require (h _ (by trivial)) _
  | some e =>
    rw [Node.ofExpr?, e.isAbsent_toNode]
    split
    · exact (logs_report (h _ (by trivial))).bind fun _ => (logs_typeOf (hvalue e rfl)).discard
    · exact (logs_typeOf (hvalue e rfl)).bind fun _ => logs_require (h _ (by trivial)) _

mutual

/-- What `check` reports about a statement is what the statement `Blames`. -/
theorem logs_check : ∀ s : Stmt, (∀ found, s.Blames found → P found) → (check s.toNode).Logs P
  | .expr e _, h => (logs_typeOf h).discard.bind fun _ => logs_pure _
  | .declare t x none pos, h => (logs_declare (h _ (.inl rfl))).bind fun _ => logs_pure _
  | .declare t x (some e) pos, h => by
    have he : ∀ found, e.Blames found → P found :=
      fun found hfound => h found (.inr (.inr ⟨e, rfl, hfound⟩))
    rw [Stmt.toNode, check, Node.ofExpr?, e.isAbsent_toNode]
    exact (logs_declare (h _ (.inl rfl))).bind fun _ => (logs_typeOf he).bind fun u =>
      (logs_require (h _ (.inr (.inl ⟨u, rfl⟩))) _).bind fun _ => logs_pure _
  | .ifThen c b _, h => by
    have hcond := logs_checkCondition (h _ (.inl rfl)) fun found hfound =>
      h found (.inr (.inl hfound))
    have hbody := logs_checkBlock b fun found hfound => h found (.inr (.inr hfound))
    exact hcond.bind fun _ => hbody.discard.bind fun _ => logs_pure _
  | .ifElse c b a _, h => by
    have hcond := logs_checkCondition (h _ (.inl rfl)) fun found hfound =>
      h found (.inr (.inl hfound))
    have hbody := logs_checkBlock b fun found hfound => h found (.inr (.inr (.inl hfound)))
    have helse := logs_checkBlock a fun found hfound => h found (.inr (.inr (.inr hfound)))
    rw [Stmt.toNode, check, a.isAbsent_toNode]
    exact hcond.bind fun _ => hbody.discard.bind fun _ => helse.discard.bind fun _ => logs_pure _
  | .loop c b _, h => by
    have hcond := logs_checkCondition (h _ (.inl rfl)) fun found hfound =>
      h found (.inr (.inl hfound))
    have hbody := logs_checkBlock b fun found hfound => h found (.inr (.inr hfound))
    exact hcond.bind fun _ => hbody.discard.bind fun _ => logs_pure _
  | .ret value pos, h => by
    have hreturn : (checkReturn (.ofExpr? value) pos).Logs P :=
      logs_checkReturn (fun cause hcause => h ⟨cause, pos⟩ (.inl ⟨rfl, hcause⟩))
        fun e he found hfound => h found (.inr ⟨e, he, hfound⟩)
    exact hreturn.bind fun _ => logs_pure _

theorem logs_checkBlock : ∀ b : Block, (∀ found, b.Blames found → P found) → (check b.toNode).Logs P
  | .mk ss _, h => (logs_checkAll ss h).bind fun _ => logs_pure _

theorem logs_checkAll : ∀ ss : List Stmt, (∀ found, Stmt.BlamesAny found ss → P found) →
    (checkAll (Stmt.toNodes ss)).Logs P
  | [], _ => logs_pure ()
  | s :: ss, h => (logs_check s fun found hfound => h found (.inl hfound)).discard.bind fun _ =>
      logs_checkAll ss fun found hfound => h found (.inr hfound)

end

/-! ### Functions and programs -/

theorem logs_declareFunction {name : String} {signature : Signature} {pos : Pos}
    (h : P ⟨.functionRedeclared name, pos⟩) : (declareFunction name signature pos).Logs P := by
  refine logs_get.bind fun context => ?_
  split
  · exact (logs_report h).bind fun _ => (logs_modify _).bind fun _ => logs_pure _
  · exact (logs_modify _).bind fun _ => logs_pure _

theorem logs_enter {f : Function} (hparams : ∀ p ∈ f.params, P ⟨.parameterRedeclared p.name, p.pos⟩)
    (hbody : ∀ found, f.body.Blames found → P found) (scope : String) : (enter scope f).Logs P := by
  have hlogs : (declareParams f.params >>= fun _ => discard (check f.body.toNode)).Logs P :=
    (logs_declareParams hparams).bind fun _ => (logs_checkBlock f.body hbody).discard
  -- entering a function leaves the log to its body
  refine (logs_modify _).bind fun _ => Logs.bind (fun context => ?_) fun _ => logs_pure _
  exact hlogs { context with table.current := scope, returnType := f.result.given? }

/-- What `check` reports about a function is what the function `Blames`. -/
theorem logs_check_function {f : Function} (h : ∀ found, f.Blames found → P found) :
    (check f.toNode).Logs P := by
  rw [check_function_eq]
  refine (logs_declareFunction (h _ (.inl rfl))).bind fun scope => logs_enter ?_ ?_ scope
  · exact fun p hp => h _ (.inr (.inl ⟨p, hp, rfl⟩))
  · exact fun found hfound => h found (.inr (.inr hfound))

theorem logs_checkAll_functions {fs : List Function}
    (h : ∀ f ∈ fs, ∀ found, f.Blames found → P found) :
    (checkAll (fs.map Function.toNode)).Logs P := by
  induction fs with
  | nil => exact logs_pure ()
  | cons f fs ih =>
    obtain ⟨hf, hfs⟩ := List.forall_mem_cons.1 h
    exact (logs_check_function hf).discard.bind fun _ => ih hfs

end Typing

/-- Every finding of `analyze` is about one of the functions, and stands at the piece of it that is
to blame. -/
theorem blames_of_mem_findings {p : Program} {found : Finding TypingCause}
    (h : found ∈ (analyze p).findings) : ∃ f ∈ p.functions, f.Blames found := by
  have hcheck : (Typing.check p.toNode).Logs fun found => ∃ f ∈ p.functions, f.Blames found :=
    (Typing.logs_checkAll_functions fun f hf found hfound => ⟨f, hf, hfound⟩).bind
      fun _ => Pass.logs_pure _
  exact hcheck .empty found h

/-! ### Operators are never unknown -/

/-- The finding is not about an operator that the checker does not know. -/
def TypingCause.OperatorKnown : TypingCause → Prop
  | unknownUnary _ => False
  | unknownBinary _ => False
  | _ => True

/-- An expression with `OperatorsKnown` is not blamed for an unknown operator. -/
theorem Expr.OperatorsKnown.of_blames {e : Expr} (h : e.OperatorsKnown)
    {found : Finding TypingCause} (hfound : e.Blames found) : found.cause.OperatorKnown := by
  obtain ⟨part, hpart, hfound⟩ := hfound
  have hknown := h part hpart
  cases hfound with
  | unknownUnary hop => exact absurd hknown hop
  | unknownBinary hop => exact absurd hknown hop
  | _ => trivial

mutual

/-- A statement with known operators is not blamed for an unknown one. -/
theorem Stmt.operatorKnown_of_blames : ∀ s : Stmt, (∀ e ∈ s.exprs, e.OperatorsKnown) →
    ∀ found, s.Blames found → found.cause.OperatorKnown
  | .expr e _, h, _, hfound => (h e (List.mem_singleton_self e)).of_blames hfound
  | .declare _ _ init _, h, _, hfound => by
    obtain rfl | ⟨u, rfl⟩ | ⟨e, he, hfound⟩ := hfound
    · trivial
    · trivial
    · exact (h e (Option.mem_toList.2 he)).of_blames hfound
  | .ifThen c b _, h, found, hfound => by
    obtain ⟨hc, hb⟩ := List.forall_mem_cons.1 h
    obtain rfl | hfound | hfound := hfound
    · trivial
    · exact hc.of_blames hfound
    · exact b.operatorKnown_of_blames hb found hfound
  | .ifElse c b a _, h, found, hfound => by
    obtain ⟨hc, hexprs⟩ := List.forall_mem_cons.1 h
    obtain ⟨hb, ha⟩ := List.forall_mem_append.1 hexprs
    obtain rfl | hfound | hfound | hfound := hfound
    · trivial
    · exact hc.of_blames hfound
    · exact b.operatorKnown_of_blames hb found hfound
    · exact a.operatorKnown_of_blames ha found hfound
  | .loop c b _, h, found, hfound => by
    obtain ⟨hc, hb⟩ := List.forall_mem_cons.1 h
    obtain rfl | hfound | hfound := hfound
    · trivial
    · exact hc.of_blames hfound
    · exact b.operatorKnown_of_blames hb found hfound
  | .ret value _, h, ⟨cause, _⟩, hfound => by
    obtain ⟨-, hcause⟩ | ⟨e, he, hfound⟩ := hfound
    · cases cause with
      | unknownUnary => exact hcause
      | unknownBinary => exact hcause
      | _ => trivial
    · exact (h e (Option.mem_toList.2 he)).of_blames hfound

theorem Block.operatorKnown_of_blames : ∀ b : Block, (∀ e ∈ b.exprs, e.OperatorsKnown) →
    ∀ found, b.Blames found → found.cause.OperatorKnown
  | .mk ss _, h => Stmt.operatorKnown_of_blamesAny ss h

theorem Stmt.operatorKnown_of_blamesAny :
    ∀ ss : List Stmt, (∀ e ∈ Stmt.exprsAll ss, e.OperatorsKnown) →
    ∀ found, Stmt.BlamesAny found ss → found.cause.OperatorKnown
  | [], _, _, hfound => hfound.elim
  | s :: ss, h, found, hfound => by
    obtain ⟨hs, hss⟩ := List.forall_mem_append.1 h
    obtain hfound | hfound := hfound
    · exact s.operatorKnown_of_blames hs found hfound
    · exact Stmt.operatorKnown_of_blamesAny ss hss found hfound

end

/-- Where all operations are those of the language, no finding is about an unknown operator. -/
theorem operatorKnown_of_mem_findings {p : Program}
    (h : ∀ f ∈ p.functions, ∀ e ∈ f.body.exprs, e.OperatorsKnown) {found : Finding TypingCause}
    (hfound : found ∈ (analyze p).findings) : found.cause.OperatorKnown := by
  obtain ⟨f, hf, hblames⟩ := blames_of_mem_findings hfound
  obtain rfl | ⟨_, -, rfl⟩ | hbody := hblames
  · trivial
  · trivial
  · exact f.body.operatorKnown_of_blames (h f hf) found hbody

end Tricode
