import Tricode.Lowering
import Tricode.Proofs.Names
import Tricode.Proofs.Pass

/-!
# The code of a program as a function of its tree

Lowering threads two counters and logs what it emits. Here the same code is given by recursion on
the tree, from the numbers of the first free temporary `k` and the first free label `l`:
`Expr.code`, `Stmt.code` and `Function.code`, with the operand that holds an expression's value
(`Expr.operand`).

`Lowering.lower_stmt` and `generate_eq` say that this is the code that lowering emits, for every
tree in which only names are called.
-/

namespace Tricode

/-! ### Expressions -/

namespace Expr

mutual

/-- The number of operations and calls of an expression. Each takes one temporary. -/
def temps : Expr → Nat
  | literal .. => 0
  | ident .. => 0
  | unary _ e _ => e.temps + 1
  | binary _ l r _ => l.temps + r.temps + 1
  | call _ args _ => tempsAll args + 1
  | assign _ e _ => e.temps

/-- The number of operations and calls in a list. -/
def tempsAll : List Expr → Nat
  | [] => 0
  | e :: es => e.temps + tempsAll es

end

/-- What holds the value of an expression whose first temporary has number `k`. -/
def operand (k : Nat) : Expr → String
  | literal _ text _ => text
  | ident x _ => x
  | unary _ e _ => tempName (k + e.temps)
  | binary _ l r _ => tempName (k + l.temps + r.temps)
  | call _ args _ => tempName (k + tempsAll args)
  | assign x _ _ => x

/-- What holds the values of expressions that are lowered one behind the other. -/
def operands (k : Nat) : List Expr → List String
  | [] => []
  | e :: es => e.operand k :: operands (k + e.temps) es

/-- There is one of the `operands` for each argument. -/
theorem length_operands (k : Nat) (es : List Expr) : (operands k es).length = es.length := by
  induction es generalizing k with
  | nil => rfl
  | cons e es ih => rw [operands, List.length_cons, List.length_cons, ih]

mutual

/-- The code of an expression whose first temporary has number `k`. -/
def code (k : Nat) : Expr → List Instr
  | literal .. => []
  | ident .. => []
  | unary op e _ => e.code k ++ [.unary (k + e.temps) op (e.operand k)]
  | binary op l r _ =>
    l.code k ++ (r.code (k + l.temps)
      ++ [.binary (k + l.temps + r.temps) (l.operand k) op (r.operand (k + l.temps))])
  | call f args _ =>
    codeAll k args ++ ((operands k args).map .param
      ++ [.call (k + tempsAll args) f.callee (operands k args).length])
  | assign x e _ => e.code k ++ [.copy x (e.operand k)]

/-- The code of expressions that are lowered one behind the other. -/
def codeAll (k : Nat) : List Expr → List Instr
  | [] => []
  | e :: es => e.code k ++ codeAll (k + e.temps) es

end

end Expr

namespace Lowering

/-- `emitParams` emits an instruction for each operand, and draws no number. -/
theorem emitParams_apply (operands : List String) (c : Counters) :
    emitParams operands c = ⟨.ok (), operands.map .param, c⟩ := by
  induction operands with
  | nil => rfl
  | cons a as ih => exact Pass.bind_eq rfl ih

mutual

/-- Lowering an expression in which only names are called: its value is held by its `operand`, its
`code` is emitted, and as many temporaries are drawn as it has `temps`. -/
theorem lowerExpr_toNode : ∀ (e : Expr) (c : Counters), e.CallsNames →
    lowerExpr e.toNode c =
      ⟨.ok (e.operand c.temps), e.code c.temps, ⟨c.temps + e.temps, c.labels⟩⟩
  | .literal .., _, _ => rfl
  | .ident .., _, _ => rfl
  | .unary op e pos, c, h => by
    have he := lowerExpr_toNode e c fun part hpart => h part (by simp [Expr.parts, hpart])
    exact Pass.bind_eq he rfl
  | .binary op l r pos, c, h => by
    have hl := lowerExpr_toNode l c fun part hpart => h part (by simp [Expr.parts, hpart])
    have hr := lowerExpr_toNode r ⟨c.temps + l.temps, c.labels⟩ fun part hpart =>
      h part (by simp [Expr.parts, hpart])
    -- the temporaries of both operands, and one for the result
    have hcounters : c.temps + (Expr.binary op l r pos).temps =
        c.temps + l.temps + r.temps + 1 := by
      rw [Expr.temps]
      omega
    rw [hcounters]
    exact Pass.bind_eq hl (Pass.bind_eq hr rfl)
  | .call f args pos, c, h => by
    obtain ⟨x, p, rfl⟩ : ∃ x p, f = .ident x p := h _ (Expr.self_mem_parts _)
    have ha := lowerArgs_toNodes args c fun part hpart => h part (by simp [Expr.parts, hpart])
    exact Pass.bind_eq ha (Pass.bind_eq (emitParams_apply _ _) rfl)
  | .assign x e pos, c, h => by
    have he := lowerExpr_toNode e c fun part hpart => h part (by simp [Expr.parts, hpart])
    exact Pass.bind_eq he rfl

/-- `lowerArgs` lowers arguments in which only names are called, one behind the other. -/
theorem lowerArgs_toNodes : ∀ (es : List Expr) (c : Counters),
    (∀ part ∈ Expr.partsAll es, part.CallsName) →
    lowerArgs (Expr.toNodes es) c =
      ⟨.ok (Expr.operands c.temps es), Expr.codeAll c.temps es,
        ⟨c.temps + Expr.tempsAll es, c.labels⟩⟩
  | [], _, _ => rfl
  | e :: es, c, h => by
    have he := lowerExpr_toNode e c fun part hpart => h part (by simp [Expr.partsAll, hpart])
    have hes := lowerArgs_toNodes es ⟨c.temps + e.temps, c.labels⟩ fun part hpart =>
      h part (by simp [Expr.partsAll, hpart])
    have hcounters : c.temps + Expr.tempsAll (e :: es) = c.temps + e.temps + Expr.tempsAll es := by
      rw [Expr.tempsAll]
      omega
    rw [hcounters]
    exact Pass.bind_eq he (Pass.bind_eq_of_silent hes rfl)

end

end Lowering

/-! ### Statements -/

mutual

/-- The number of operations and calls of a statement. -/
def Stmt.temps : Stmt → Nat
  | .expr e _ => e.temps
  | .declare _ _ none _ => 0
  | .declare _ _ (some e) _ => e.temps
  | .ifThen c b _ => c.temps + b.temps
  | .ifElse c b a _ => c.temps + b.temps + a.temps
  | .loop c b _ => c.temps + b.temps
  | .ret none _ => 0
  | .ret (some e) _ => e.temps

/-- The number of operations and calls of a block. -/
def Block.temps : Block → Nat
  | .mk ss _ => Stmt.tempsAll ss

/-- The number of operations and calls of statements. -/
def Stmt.tempsAll : List Stmt → Nat
  | [] => 0
  | s :: ss => s.temps + Stmt.tempsAll ss

end

mutual

/-- The number of labels of a statement: where a conditional or a loop goes on, and where the
alternative or the next round begins. -/
def Stmt.labels : Stmt → Nat
  | .ifThen _ b _ => b.labels + 1
  | .ifElse _ b a _ => b.labels + a.labels + 2
  | .loop _ b _ => b.labels + 2
  | _ => 0

/-- The number of labels of a block. -/
def Block.labels : Block → Nat
  | .mk ss _ => Stmt.labelsAll ss

/-- The number of labels of statements. -/
def Stmt.labelsAll : List Stmt → Nat
  | [] => 0
  | s :: ss => s.labels + Stmt.labelsAll ss

end

mutual

/-- The code of a statement whose first temporary has number `k` and whose first label has number
`l`. -/
def Stmt.code (k l : Nat) : Stmt → List Instr
  | .expr e _ => e.code k
  | .declare _ x none _ => [.declare x]
  | .declare _ x (some e) _ => e.code k ++ [.copy x (e.operand k)]
  | .ifThen c b _ =>
    c.code k ++ (.jumpUnless (c.operand k) l :: (b.code (k + c.temps) (l + 1) ++ [.label l]))
  | .ifElse c b a _ =>
    c.code k ++ (.jumpUnless (c.operand k) l :: (b.code (k + c.temps) (l + 2)
      ++ (.jump (l + 1) :: .label l :: (a.code (k + c.temps + b.temps) (l + 2 + b.labels)
        ++ [.label (l + 1)]))))
  | .loop c b _ =>
    .label l :: (c.code k ++ (.jumpUnless (c.operand k) (l + 1)
      :: (b.code (k + c.temps) (l + 2) ++ [.jump l, .label (l + 1)])))
  | .ret none _ => [.ret none]
  | .ret (some e) _ => e.code k ++ [.ret (some (e.operand k))]

/-- The code of a block. -/
def Block.code (k l : Nat) : Block → List Instr
  | .mk ss _ => Stmt.codeAll k l ss

/-- The code of statements, one behind the other. -/
def Stmt.codeAll (k l : Nat) : List Stmt → List Instr
  | [] => []
  | s :: ss => s.code k l ++ Stmt.codeAll (k + s.temps) (l + s.labels) ss

end

/-- The `code` of a block is that of its statements. -/
theorem Block.code_eq (k l : Nat) (b : Block) : b.code k l = Stmt.codeAll k l b.statements := by
  cases b
  rfl

namespace Lowering

mutual

/-- Lowering a statement in which only names are called: its `code` is emitted, and the `Counters`
go on by its `temps` and `labels`. -/
theorem lower_stmt : ∀ (s : Stmt) (c : Counters), (∀ e ∈ s.exprs, e.CallsNames) →
    lower s.toNode c =
      ⟨.ok (), s.code c.temps c.labels, ⟨c.temps + s.temps, c.labels + s.labels⟩⟩
  | .expr e pos, c, h => by
    exact Pass.discard_eq (lowerExpr_toNode e c (h e (by simp [Stmt.exprs])))
  | .declare t x none pos, c, h => rfl
  | .declare t x (some e) pos, c, h => by
    have he := lowerExpr_toNode e c (h e (by simp [Stmt.exprs]))
    change (if e.toNode.isAbsent then _ else _ : Lowering Unit) c = _
    rw [e.isAbsent_toNode]
    exact Pass.bind_eq he rfl
  | .ifThen e b pos, c, h => by
    simp only [Stmt.exprs, List.mem_cons, forall_eq_or_imp] at h
    have he := lowerExpr_toNode e c h.1
    -- the label behind the body is drawn before the body is lowered
    have hb := lower_block b ⟨c.temps + e.temps, c.labels + 1⟩ h.2
    rw [Stmt.temps, Stmt.labels, Nat.add_comm b.labels, ← Nat.add_assoc, ← Nat.add_assoc]
    exact Pass.bind_eq he (Pass.bind_eq rfl (Pass.bind_eq rfl (Pass.bind_eq hb rfl)))
  | .ifElse e b a pos, c, h => by
    simp only [Stmt.exprs, List.mem_cons, List.mem_append, forall_eq_or_imp] at h
    have he := lowerExpr_toNode e c h.1
    have hb := lower_block b ⟨c.temps + e.temps, c.labels + 2⟩ fun e he => h.2 e (.inl he)
    have ha := lower_block a ⟨c.temps + e.temps + b.temps, c.labels + 2 + b.labels⟩
      fun e he => h.2 e (.inr he)
    have hcounters : (⟨c.temps + (Stmt.ifElse e b a pos).temps,
        c.labels + (Stmt.ifElse e b a pos).labels⟩ : Counters) =
        ⟨c.temps + e.temps + b.temps + a.temps, c.labels + 2 + b.labels + a.labels⟩ := by
      simp only [Stmt.temps, Stmt.labels, Counters.mk.injEq]
      omega
    rw [hcounters]
    refine Pass.bind_eq he ?_
    rw [a.isAbsent_toNode]
    exact Pass.bind_eq rfl (Pass.bind_eq rfl (Pass.bind_eq rfl (Pass.bind_eq hb
      (Pass.bind_eq rfl (Pass.bind_eq rfl (Pass.bind_eq ha rfl))))))
  | .loop e b pos, c, h => by
    simp only [Stmt.exprs, List.mem_cons, forall_eq_or_imp] at h
    -- both labels of a loop are drawn in front of its condition
    have he := lowerExpr_toNode e ⟨c.temps, c.labels + 2⟩ h.1
    have hb := lower_block b ⟨c.temps + e.temps, c.labels + 2⟩ h.2
    rw [Stmt.temps, Stmt.labels, Nat.add_comm b.labels, ← Nat.add_assoc, ← Nat.add_assoc]
    exact Pass.bind_eq rfl (Pass.bind_eq rfl (Pass.bind_eq rfl (Pass.bind_eq he
      (Pass.bind_eq rfl (Pass.bind_eq hb (Pass.bind_eq rfl rfl))))))
  | .ret none pos, c, h => rfl
  | .ret (some e) pos, c, h => by
    have he := lowerExpr_toNode e c (h e (by simp [Stmt.exprs]))
    change (if e.toNode.isAbsent then _ else _ : Lowering Unit) c = _
    rw [e.isAbsent_toNode]
    exact Pass.bind_eq he rfl

/-- Lowering a block in which only names are called: its `code` is emitted, and the counters go on
by its `temps` and `labels`. -/
theorem lower_block : ∀ (b : Block) (c : Counters), (∀ e ∈ b.exprs, e.CallsNames) →
    lower b.toNode c =
      ⟨.ok (), b.code c.temps c.labels, ⟨c.temps + b.temps, c.labels + b.labels⟩⟩
  | .mk ss _, c, h => lowerAll_stmts ss c h

theorem lowerAll_stmts : ∀ (ss : List Stmt) (c : Counters),
    (∀ e ∈ Stmt.exprsAll ss, e.CallsNames) →
    lowerAll (Stmt.toNodes ss) c =
      ⟨.ok (), Stmt.codeAll c.temps c.labels ss,
        ⟨c.temps + Stmt.tempsAll ss, c.labels + Stmt.labelsAll ss⟩⟩
  | [], _, _ => rfl
  | s :: ss, c, h => by
    simp only [Stmt.exprsAll, List.mem_append] at h
    have hs := lower_stmt s c fun e he => h e (.inl he)
    have hss := lowerAll_stmts ss ⟨c.temps + s.temps, c.labels + s.labels⟩ fun e he => h e (.inr he)
    rw [Stmt.tempsAll, Stmt.labelsAll, ← Nat.add_assoc, ← Nat.add_assoc]
    exact Pass.bind_eq hs hss

end

end Lowering

/-! ### Functions and programs -/

/-- The code of a function whose first temporary has number `k` and whose first label has number
`l`. -/
def Function.code (k l : Nat) (f : Function) : List Instr :=
  .functionStart f.name :: (f.body.code k l ++ [.functionEnd f.name])

/-- The number of operations and calls of functions. -/
def Function.tempsAll : List Function → Nat
  | [] => 0
  | f :: fs => f.body.temps + Function.tempsAll fs

/-- The number of labels of functions. -/
def Function.labelsAll : List Function → Nat
  | [] => 0
  | f :: fs => f.body.labels + Function.labelsAll fs

/-- The code of functions, one behind the other. -/
def Function.codeAll (k l : Nat) : List Function → List Instr
  | [] => []
  | f :: fs => f.code k l ++ Function.codeAll (k + f.body.temps) (l + f.body.labels) fs

namespace Lowering

theorem lower_function (f : Function) (c : Counters) (h : ∀ e ∈ f.body.exprs, e.CallsNames) :
    lower f.toNode c =
      ⟨.ok (), f.code c.temps c.labels, ⟨c.temps + f.body.temps, c.labels + f.body.labels⟩⟩ :=
  Pass.bind_eq rfl (Pass.bind_eq (lower_block f.body c h) rfl)

/-- Lowering functions one behind the other emits their `codeAll`. -/
theorem lowerAll_functions (fs : List Function) (c : Counters)
    (h : ∀ f ∈ fs, ∀ e ∈ f.body.exprs, e.CallsNames) :
    ∃ c', lowerAll (fs.map Function.toNode) c =
      ⟨.ok (), Function.codeAll c.temps c.labels fs, c'⟩ := by
  induction fs generalizing c with
  | nil => exact ⟨c, rfl⟩
  | cons f fs ih =>
    have hf := lower_function f c (h f (by simp))
    obtain ⟨c', hfs⟩ := ih ⟨c.temps + f.body.temps, c.labels + f.body.labels⟩
      fun g hg => h g (by simp [hg])
    exact ⟨c', Pass.bind_eq hf hfs⟩

end Lowering

/-- A program in which only names are called is lowered to its code: `generate` gives the `codeAll`
of its functions. -/
theorem generate_eq {p : Program} (h : p.CallsNames) :
    generate p = .ok (Function.codeAll 0 0 p.functions) := by
  obtain ⟨c', hcode⟩ := Lowering.lowerAll_functions p.functions .zero h
  have hlower : Lowering.lower p.toNode .zero = ⟨.ok (), Function.codeAll 0 0 p.functions, c'⟩ :=
    hcode
  rw [generate, hlower]
  rfl

end Tricode
