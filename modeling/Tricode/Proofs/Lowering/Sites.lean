import Tricode.Proofs.Lowering.Code

/-!
# The expressions of a program and their code

A program evaluates many expressions, each with its own temporaries. A `Site` is one of them with
the number of its first temporary, on which its code and its operand depend. `Program.sites` lists
the sites of a program, one for each part of each expression (`Expr.map_expr_sitesAll`), and the
code of each stands in the listing (`Function.code_infix_of_mem_sites`).
-/

namespace Tricode

/-- An expression that is lowered, with the number of its first temporary. -/
structure Site where
  first : Nat
  expr : Expr

namespace Site

/-- The code of the expression. -/
def code (s : Site) : List Instr :=
  s.expr.code s.first

/-- What holds the value of the expression. -/
def operand (s : Site) : String :=
  s.expr.operand s.first

/-- Expressions that are lowered one behind the other, the first of them with number `k`. -/
def sequence (k : Nat) : List Expr → List Site
  | [] => []
  | e :: es => ⟨k, e⟩ :: sequence (k + e.temps) es

/-- The operands of the expression, in the order in which they are evaluated. -/
def operands (s : Site) : List Site :=
  sequence s.first s.expr.children

/-- The instructions of the expression itself, which read its operands. -/
def operation (s : Site) : List Instr :=
  match s.expr with
  | .literal .. => []
  | .ident .. => []
  | .unary op e _ => [.unary (s.first + e.temps) op (e.operand s.first)]
  | .binary op l r _ =>
    [.binary (s.first + l.temps + r.temps) (l.operand s.first) op (r.operand (s.first + l.temps))]
  | .call f args _ =>
    (Expr.operands s.first args).map .param
      ++ [.call (s.first + Expr.tempsAll args) f.callee args.length]
  | .assign x e _ => [.copy x (e.operand s.first)]

/-- Sites one behind the other have the `code` of their expressions. -/
theorem flatMap_code_sequence (k : Nat) (es : List Expr) :
    (sequence k es).flatMap code = Expr.codeAll k es := by
  induction es generalizing k with
  | nil => rfl
  | cons e es ih => rw [sequence, List.flatMap_cons, ih, code, Expr.codeAll]

/-- The `code` of an expression is that of its operands, and then its own. -/
theorem code_eq (s : Site) : s.code = s.operands.flatMap code ++ s.operation := by
  rw [operands, flatMap_code_sequence]
  obtain ⟨k, e⟩ := s
  cases e with
  | literal | ident => rfl
  | unary | assign => simp [code, operation, Expr.code, Expr.children, Expr.codeAll]
  | binary => simp [code, operation, Expr.code, Expr.children, Expr.codeAll]
  | call f args pos =>
    simp [code, operation, Expr.code, Expr.children, Expr.length_operands]

/-- In a `sequence`, later expressions have later temporaries. -/
theorem pairwise_sequence (k : Nat) (es : List Expr) :
    (sequence k es).Pairwise (fun a b => a.first + a.expr.temps ≤ b.first) ∧
      ∀ s ∈ sequence k es, k ≤ s.first := by
  induction es generalizing k with
  | nil => simp [sequence]
  | cons e es ih =>
    -- what follows begins behind the temporaries of the first expression
    obtain ⟨hpairwise, hfirst⟩ := ih (k + e.temps)
    rw [sequence, List.pairwise_cons]
    refine ⟨⟨hfirst, hpairwise⟩, ?_⟩
    intro s hs
    rcases List.mem_cons.1 hs with rfl | hs
    · exact Nat.le_refl k
    · exact Nat.le_trans (Nat.le_add_right k e.temps) (hfirst s hs)

/-- A `sequence` of sites is one for each expression. -/
theorem map_expr_sequence (k : Nat) (es : List Expr) : (sequence k es).map expr = es := by
  induction es generalizing k with
  | nil => rfl
  | cons e es ih => rw [sequence, List.map_cons, ih]

end Site

/-! ### The sites of expressions -/

namespace Expr

mutual

/-- The parts of an expression whose first temporary has number `k`. -/
def sites (k : Nat) : Expr → List Site
  | literal kind text pos => [⟨k, literal kind text pos⟩]
  | ident x pos => [⟨k, ident x pos⟩]
  | unary op e pos => ⟨k, unary op e pos⟩ :: e.sites k
  | binary op l r pos => ⟨k, binary op l r pos⟩ :: (l.sites k ++ r.sites (k + l.temps))
  | call f args pos => ⟨k, call f args pos⟩ :: sitesAll k args
  | assign x e pos => ⟨k, assign x e pos⟩ :: e.sites k

/-- The parts of expressions that are lowered one behind the other. -/
def sitesAll (k : Nat) : List Expr → List Site
  | [] => []
  | e :: es => e.sites k ++ sitesAll (k + e.temps) es

end

mutual

/-- The `sites` of an expression are its `parts`. -/
theorem map_expr_sites : ∀ (e : Expr) (k : Nat), (e.sites k).map Site.expr = e.parts
  | literal .., k => rfl
  | ident .., k => rfl
  | unary op e pos, k => by
    have he := map_expr_sites e k
    rw [sites, parts, List.map_cons, he]
  | binary op l r pos, k => by
    have hl := map_expr_sites l k
    have hr := map_expr_sites r (k + l.temps)
    rw [sites, parts, List.map_cons, List.map_append, hl, hr]
  | call f args pos, k => by
    have hargs := map_expr_sitesAll args k
    rw [sites, parts, List.map_cons, hargs]
  | assign x e pos, k => by
    have he := map_expr_sites e k
    rw [sites, parts, List.map_cons, he]

/-- Every part of the expressions is a `Site`. -/
theorem map_expr_sitesAll : ∀ (es : List Expr) (k : Nat),
    (sitesAll k es).map Site.expr = partsAll es
  | [], k => rfl
  | e :: es, k => by
    have he := map_expr_sites e k
    have hes := map_expr_sitesAll es (k + e.temps)
    rw [sitesAll, partsAll, List.map_append, he, hes]

end

mutual

/-- The `code` of a `Site` of an expression is a piece of the code of the expression. -/
theorem code_infix_of_mem_sites : ∀ (e : Expr) (k : Nat), ∀ s ∈ e.sites k, s.code <:+: e.code k
  | literal .., k => by simp [sites, Site.code]
  | ident .., k => by simp [sites, Site.code]
  | unary op e pos, k => by
    have he := code_infix_of_mem_sites e k
    rw [sites, List.forall_mem_cons, code]
    exact ⟨List.infix_rfl, fun s hs => List.infix_append_of_infix_left (he s hs)⟩
  | binary op l r pos, k => by
    have hl := code_infix_of_mem_sites l k
    have hr := code_infix_of_mem_sites r (k + l.temps)
    rw [sites, List.forall_mem_cons, List.forall_mem_append, code]
    -- the whole is a site of itself; the others are found in the operands
    exact ⟨List.infix_rfl, fun s hs => List.infix_append_of_infix_left (hl s hs),
      fun s hs => List.infix_append_of_infix_right (List.infix_append_of_infix_left (hr s hs))⟩
  | call f args pos, k => by
    have hargs := code_infix_of_mem_sitesAll args k
    rw [sites, List.forall_mem_cons, code]
    exact ⟨List.infix_rfl, fun s hs => List.infix_append_of_infix_left (hargs s hs)⟩
  | assign x e pos, k => by
    have he := code_infix_of_mem_sites e k
    rw [sites, List.forall_mem_cons, code]
    exact ⟨List.infix_rfl, fun s hs => List.infix_append_of_infix_left (he s hs)⟩

theorem code_infix_of_mem_sitesAll : ∀ (es : List Expr) (k : Nat),
    ∀ s ∈ sitesAll k es, s.code <:+: codeAll k es
  | [], k => by simp [sitesAll]
  | e :: es, k => by
    have he := code_infix_of_mem_sites e k
    have hes := code_infix_of_mem_sitesAll es (k + e.temps)
    rw [sitesAll, List.forall_mem_append, codeAll]
    exact ⟨fun s hs => List.infix_append_of_infix_left (he s hs),
      fun s hs => List.infix_append_of_infix_right (hes s hs)⟩

end

theorem tempsAll_append (es es' : List Expr) :
    tempsAll (es ++ es') = tempsAll es + tempsAll es' := by
  induction es with
  | nil => simp [tempsAll]
  | cons e es ih => simp only [List.cons_append, tempsAll, ih, Nat.add_assoc]

theorem sitesAll_append (es es' : List Expr) (k : Nat) :
    sitesAll k (es ++ es') = sitesAll k es ++ sitesAll (k + tempsAll es) es' := by
  induction es generalizing k with
  | nil => rfl
  | cons e es ih =>
    simp only [List.cons_append, sitesAll, tempsAll, ih, List.append_assoc, Nat.add_assoc]

end Expr

/-! ### The sites of programs -/

mutual

/-- A statement takes the `temps` of its expressions. -/
theorem Stmt.tempsAll_exprs : ∀ s : Stmt, Expr.tempsAll s.exprs = s.temps
  | .expr e pos => by simp [Stmt.exprs, Stmt.temps, Expr.tempsAll]
  | .declare t x none pos => rfl
  | .declare t x (some e) pos => by simp [Stmt.exprs, Stmt.temps, Expr.tempsAll]
  | .ret none pos => rfl
  | .ret (some e) pos => by simp [Stmt.exprs, Stmt.temps, Expr.tempsAll]
  | .ifThen c b pos => by
    have hb := Block.tempsAll_exprs b
    rw [Stmt.exprs, Stmt.temps, Expr.tempsAll, hb]
  | .ifElse c b a pos => by
    have hb := Block.tempsAll_exprs b
    have ha := Block.tempsAll_exprs a
    rw [Stmt.exprs, Stmt.temps, Expr.tempsAll, Expr.tempsAll_append, hb, ha, Nat.add_assoc]
  | .loop c b pos => by
    have hb := Block.tempsAll_exprs b
    rw [Stmt.exprs, Stmt.temps, Expr.tempsAll, hb]

theorem Block.tempsAll_exprs : ∀ b : Block, Expr.tempsAll b.exprs = b.temps
  | .mk ss _ => Stmt.tempsAll_exprsAll ss

theorem Stmt.tempsAll_exprsAll : ∀ ss : List Stmt,
    Expr.tempsAll (Stmt.exprsAll ss) = Stmt.tempsAll ss
  | [] => rfl
  | s :: ss => by
    have hs := Stmt.tempsAll_exprs s
    have hss := Stmt.tempsAll_exprsAll ss
    rw [Stmt.exprsAll, Stmt.tempsAll, Expr.tempsAll_append, hs, hss]

end

mutual

/-- The `code` of a site of a statement is a piece of the code of the statement. -/
theorem Stmt.code_infix_of_mem_sites : ∀ (s : Stmt) (k l : Nat),
    ∀ site ∈ Expr.sitesAll k s.exprs, site.code <:+: s.code k l
  | .expr e pos, k, l => by
    have he := e.code_infix_of_mem_sites k
    simpa [Stmt.exprs, Stmt.code, Expr.sitesAll] using he
  | .declare t x none pos, k, l => by simp [Stmt.exprs, Expr.sitesAll]
  | .declare t x (some e) pos, k, l => by
    have he := e.code_infix_of_mem_sites k
    simp only [Stmt.exprs, Stmt.code, Expr.sitesAll, Option.toList_some, List.append_nil]
    exact fun site h => List.infix_append_of_infix_left (he site h)
  | .ret none pos, k, l => by simp [Stmt.exprs, Expr.sitesAll]
  | .ret (some e) pos, k, l => by
    have he := e.code_infix_of_mem_sites k
    simp only [Stmt.exprs, Stmt.code, Expr.sitesAll, Option.toList_some, List.append_nil]
    exact fun site h => List.infix_append_of_infix_left (he site h)
  | .ifThen c b pos, k, l => by
    have hc := c.code_infix_of_mem_sites k
    have hb := Block.code_infix_of_mem_sites b (k + c.temps) (l + 1)
    rw [Stmt.exprs, Stmt.code, Expr.sitesAll, List.forall_mem_append]
    exact ⟨fun site h => List.infix_append_of_infix_left (hc site h), fun site h =>
      List.infix_append_of_infix_right (List.infix_cons
        (List.infix_append_of_infix_left (hb site h)))⟩
  | .ifElse c b a pos, k, l => by
    have hc := c.code_infix_of_mem_sites k
    have hb := Block.code_infix_of_mem_sites b (k + c.temps) (l + 2)
    have ha := Block.code_infix_of_mem_sites a (k + c.temps + b.temps) (l + 2 + b.labels)
    rw [Stmt.exprs, Stmt.code, Expr.sitesAll, Expr.sitesAll_append, b.tempsAll_exprs,
      List.forall_mem_append, List.forall_mem_append]
    -- the condition stands first, then the blocks with a jump and labels between them
    refine ⟨fun site h => List.infix_append_of_infix_left (hc site h), fun site h => ?_,
      fun site h => ?_⟩
    · exact List.infix_append_of_infix_right (List.infix_cons
        (List.infix_append_of_infix_left (hb site h)))
    · exact List.infix_append_of_infix_right (List.infix_cons (List.infix_append_of_infix_right
        (List.infix_cons (List.infix_cons (List.infix_append_of_infix_left (ha site h))))))
  | .loop c b pos, k, l => by
    have hc := c.code_infix_of_mem_sites k
    have hb := Block.code_infix_of_mem_sites b (k + c.temps) (l + 2)
    rw [Stmt.exprs, Stmt.code, Expr.sitesAll, List.forall_mem_append]
    refine ⟨fun site h => List.infix_cons (List.infix_append_of_infix_left (hc site h)),
      fun site h => ?_⟩
    exact List.infix_cons (List.infix_append_of_infix_right (List.infix_cons
      (List.infix_append_of_infix_left (hb site h))))

/-- The `code` of a site of a block is a piece of the code of the block. -/
theorem Block.code_infix_of_mem_sites : ∀ (b : Block) (k l : Nat),
    ∀ site ∈ Expr.sitesAll k b.exprs, site.code <:+: b.code k l
  | .mk ss _, k, l => Stmt.code_infix_of_mem_sitesAll ss k l

theorem Stmt.code_infix_of_mem_sitesAll : ∀ (ss : List Stmt) (k l : Nat),
    ∀ site ∈ Expr.sitesAll k (Stmt.exprsAll ss), site.code <:+: Stmt.codeAll k l ss
  | [], k, l => by simp [Stmt.exprsAll, Expr.sitesAll]
  | s :: ss, k, l => by
    have hs := Stmt.code_infix_of_mem_sites s k l
    have hss := Stmt.code_infix_of_mem_sitesAll ss (k + s.temps) (l + s.labels)
    rw [Stmt.exprsAll, Stmt.codeAll, Expr.sitesAll_append, s.tempsAll_exprs, List.forall_mem_append]
    exact ⟨fun site h => List.infix_append_of_infix_left (hs site h),
      fun site h => List.infix_append_of_infix_right (hss site h)⟩

end

/-- The expressions that a program evaluates, with all their parts. -/
def Program.sites (p : Program) : List Site :=
  Expr.sitesAll 0 (p.functions.flatMap fun f => f.body.exprs)

/-- The `code` of a site of a listing is a piece of the listing. -/
theorem Function.code_infix_of_mem_sites (fs : List Function) (k l : Nat) :
    ∀ s ∈ Expr.sitesAll k (fs.flatMap fun f => f.body.exprs),
      s.code <:+: Function.codeAll k l fs := by
  induction fs generalizing k l with
  | nil => simp [Expr.sitesAll]
  | cons f fs ih =>
    -- the sites behind the function are numbered on from its temporaries
    have hf := f.body.code_infix_of_mem_sites k l
    rw [List.flatMap_cons, Expr.sitesAll_append, f.body.tempsAll_exprs, List.forall_mem_append,
      Function.codeAll, Function.code]
    refine ⟨fun s hs => ?_, fun s hs => ?_⟩
    · exact List.infix_append_of_infix_left (List.infix_cons
        (List.infix_append_of_infix_left (hf s hs)))
    · exact List.infix_append_of_infix_right (ih _ _ s hs)

/-- A `Site` of a program is a part of an expression in one of its functions. -/
theorem Program.exists_of_mem_sites {p : Program} {s : Site} (h : s ∈ p.sites) :
    ∃ f ∈ p.functions, ∃ e ∈ f.body.exprs, s.expr ∈ e.parts := by
  have hexpr : s.expr ∈ p.sites.map Site.expr := List.mem_map_of_mem h
  rw [Program.sites, Expr.map_expr_sitesAll, Expr.mem_partsAll] at hexpr
  obtain ⟨e, he, hpart⟩ := hexpr
  obtain ⟨f, hf, he⟩ := List.mem_flatMap.1 he
  exact ⟨f, hf, e, he, hpart⟩

end Tricode
