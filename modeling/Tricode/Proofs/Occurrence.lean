import Tricode.Proofs.Names

/-!
# Occurrences of expressions

An occurrence of an expression is given by what stands around it: an expression, a statement, a
function or a program in which one place for an expression is left open (`Expr.Hole`, `Stmt.Hole`,
`Block.Hole`, `Function.Hole`, `Program.Hole`). Filling the place with an expression gives the
whole.

What is called is not evaluated and is no such place, nor is anything inside it. All other places
are there: the expressions that fill a hole of a program to the program are exactly the parts of the
expressions that it evaluates (`Program.exists_fill_eq_iff`).
-/

namespace Tricode

/-! ### Expressions -/

/-- An expression with an open place. -/
inductive Expr.Hole where
  /-- The place is all there is. -/
  | here
  | unary (op : String) (operand : Expr.Hole) (pos : Pos)
  | left (op : String) (left : Expr.Hole) (right : Expr) (pos : Pos)
  | right (op : String) (left : Expr) (right : Expr.Hole) (pos : Pos)
  | arg (callee : Expr) (before : List Expr) (arg : Expr.Hole) (after : List Expr) (pos : Pos)
  | assign (target : String) (value : Expr.Hole) (pos : Pos)

/-- The expression with `e` in the open place. -/
def Expr.Hole.fill (e : Expr) : Expr.Hole → Expr
  | here => e
  | unary op h pos => .unary op (h.fill e) pos
  | left op h r pos => .binary op (h.fill e) r pos
  | right op l h pos => .binary op l (h.fill e) pos
  | arg f before h after pos => .call f (before ++ h.fill e :: after) pos
  | assign x h pos => .assign x (h.fill e) pos

namespace Expr

/-- What fills a `Hole` of an expression is a part of it. -/
theorem Hole.mem_parts_fill (h : Hole) (e : Expr) : e ∈ (h.fill e).parts := by
  -- by induction on the way from the whole to the place
  induction h with
  | here => exact e.self_mem_parts
  | unary op h pos ih => exact List.mem_cons_of_mem _ ih
  | left op h r pos ih => exact List.mem_cons_of_mem _ (List.mem_append_left _ ih)
  | right op l h pos ih => exact List.mem_cons_of_mem _ (List.mem_append_right _ ih)
  | arg f before h after pos ih =>
    refine List.mem_cons_of_mem _ (mem_partsAll.2 ⟨h.fill e, ?_, ih⟩)
    exact List.mem_append_right _ (List.mem_cons_self ..)
  | assign x h pos ih => exact List.mem_cons_of_mem _ ih

mutual

/-- Every part of an expression fills a `Hole`. -/
theorem exists_fill_eq : ∀ (e : Expr) {part : Expr}, part ∈ e.parts → ∃ h : Hole, h.fill part = e
  | literal .., part, hpart => ⟨.here, List.mem_singleton.1 hpart⟩
  | ident .., part, hpart => ⟨.here, List.mem_singleton.1 hpart⟩
  | unary op e pos, part, hpart => by
    rcases List.mem_cons.1 hpart with rfl | hpart
    · exact ⟨.here, rfl⟩
    · obtain ⟨h, rfl⟩ := exists_fill_eq e hpart
      exact ⟨.unary op h pos, rfl⟩
  | binary op l r pos, part, hpart => by
    rcases List.mem_cons.1 hpart with rfl | hpart
    · exact ⟨.here, rfl⟩
    -- the place is in the left operand or in the right one
    rcases List.mem_append.1 hpart with hpart | hpart
    · obtain ⟨h, rfl⟩ := exists_fill_eq l hpart
      exact ⟨.left op h r pos, rfl⟩
    · obtain ⟨h, rfl⟩ := exists_fill_eq r hpart
      exact ⟨.right op l h pos, rfl⟩
  | call f args pos, part, hpart => by
    rcases List.mem_cons.1 hpart with rfl | hpart
    · exact ⟨.here, rfl⟩
    · obtain ⟨before, h, after, rfl⟩ := exists_fill_mem args hpart
      exact ⟨.arg f before h after pos, rfl⟩
  | assign x e pos, part, hpart => by
    rcases List.mem_cons.1 hpart with rfl | hpart
    · exact ⟨.here, rfl⟩
    · obtain ⟨h, rfl⟩ := exists_fill_eq e hpart
      exact ⟨.assign x h pos, rfl⟩

/-- A part of one of the arguments fills a `Hole` in it. -/
theorem exists_fill_mem : ∀ (es : List Expr) {part : Expr}, part ∈ partsAll es →
    ∃ (before : List Expr) (h : Hole) (after : List Expr), before ++ h.fill part :: after = es
  | e :: es, part, hpart => by
    rcases List.mem_append.1 hpart with hpart | hpart
    · obtain ⟨h, rfl⟩ := exists_fill_eq e hpart
      exact ⟨[], h, es, rfl⟩
    · obtain ⟨before, h, after, rfl⟩ := exists_fill_mem es hpart
      exact ⟨e :: before, h, after, rfl⟩

end

end Expr

/-! ### Statements -/

mutual

/-- A statement with an open place. -/
inductive Stmt.Hole where
  | expr (e : Expr.Hole) (pos : Pos)
  | init (type : Ty) (name : String) (init : Expr.Hole) (pos : Pos)
  | ifThenCond (cond : Expr.Hole) (body : Block) (pos : Pos)
  | ifThenBody (cond : Expr) (body : Block.Hole) (pos : Pos)
  | ifElseCond (cond : Expr.Hole) (body alternative : Block) (pos : Pos)
  | ifElseBody (cond : Expr) (body : Block.Hole) (alternative : Block) (pos : Pos)
  | ifElseAlternative (cond : Expr) (body : Block) (alternative : Block.Hole) (pos : Pos)
  | loopCond (cond : Expr.Hole) (body : Block) (pos : Pos)
  | loopBody (cond : Expr) (body : Block.Hole) (pos : Pos)
  | ret (value : Expr.Hole) (pos : Pos)

/-- A block with an open place. -/
inductive Block.Hole where
  | mk (before : List Stmt) (statement : Stmt.Hole) (after : List Stmt) (pos : Pos)

end

mutual

/-- The statement with `e` in the open place. -/
def Stmt.Hole.fill (e : Expr) : Stmt.Hole → Stmt
  | .expr h pos => .expr (h.fill e) pos
  | .init t x h pos => .declare t x (some (h.fill e)) pos
  | .ifThenCond h b pos => .ifThen (h.fill e) b pos
  | .ifThenBody c h pos => .ifThen c (h.fill e) pos
  | .ifElseCond h b a pos => .ifElse (h.fill e) b a pos
  | .ifElseBody c h a pos => .ifElse c (h.fill e) a pos
  | .ifElseAlternative c b h pos => .ifElse c b (h.fill e) pos
  | .loopCond h b pos => .loop (h.fill e) b pos
  | .loopBody c h pos => .loop c (h.fill e) pos
  | .ret h pos => .ret (some (h.fill e)) pos

/-- The block with `e` in the open place. -/
def Block.Hole.fill (e : Expr) : Block.Hole → Block
  | .mk before h after pos => .mk (before ++ h.fill e :: after) pos

end

mutual

/-- What fills a `Hole` of a statement is a part of one of its expressions. -/
theorem Stmt.Hole.mem_parts_fill (e : Expr) : ∀ h : Stmt.Hole,
    ∃ whole ∈ (h.fill e).exprs, e ∈ whole.parts
  | .expr h pos => ⟨h.fill e, List.mem_singleton_self _, h.mem_parts_fill e⟩
  | .init t x h pos => ⟨h.fill e, List.mem_singleton_self _, h.mem_parts_fill e⟩
  | .ifThenCond h b pos => ⟨h.fill e, List.mem_cons_self .., h.mem_parts_fill e⟩
  | .ifThenBody c h pos => by
    obtain ⟨whole, hmem, hpart⟩ := h.mem_parts_fill e
    exact ⟨whole, List.mem_cons_of_mem _ hmem, hpart⟩
  | .ifElseCond h b a pos => ⟨h.fill e, List.mem_cons_self .., h.mem_parts_fill e⟩
  | .ifElseBody c h a pos => by
    obtain ⟨whole, hmem, hpart⟩ := h.mem_parts_fill e
    exact ⟨whole, List.mem_cons_of_mem _ (List.mem_append_left _ hmem), hpart⟩
  | .ifElseAlternative c b h pos => by
    obtain ⟨whole, hmem, hpart⟩ := h.mem_parts_fill e
    exact ⟨whole, List.mem_cons_of_mem _ (List.mem_append_right _ hmem), hpart⟩
  | .loopCond h b pos => ⟨h.fill e, List.mem_cons_self .., h.mem_parts_fill e⟩
  | .loopBody c h pos => by
    obtain ⟨whole, hmem, hpart⟩ := h.mem_parts_fill e
    exact ⟨whole, List.mem_cons_of_mem _ hmem, hpart⟩
  | .ret h pos => ⟨h.fill e, List.mem_singleton_self _, h.mem_parts_fill e⟩

/-- What fills a `Hole` of a block is a part of one of its expressions. -/
theorem Block.Hole.mem_parts_fill (e : Expr) : ∀ h : Block.Hole,
    ∃ whole ∈ (h.fill e).exprs, e ∈ whole.parts
  | .mk before h after pos => by
    obtain ⟨whole, hmem, hpart⟩ := h.mem_parts_fill e
    refine ⟨whole, Stmt.mem_exprsAll.2 ⟨h.fill e, ?_, hmem⟩, hpart⟩
    exact List.mem_append_right _ (List.mem_cons_self ..)

end

mutual

/-- Every part of an expression of a statement fills a `Hole` of the statement. -/
theorem Stmt.exists_fill_eq : ∀ (s : Stmt) {whole e : Expr}, whole ∈ s.exprs → e ∈ whole.parts →
    ∃ h : Stmt.Hole, h.fill e = s
  | .expr c pos, whole, e, hwhole, he => by
    obtain rfl := List.mem_singleton.1 hwhole
    obtain ⟨h, rfl⟩ := whole.exists_fill_eq he
    exact ⟨.expr h pos, rfl⟩
  | .declare t x (some c) pos, whole, e, hwhole, he => by
    obtain rfl := List.mem_singleton.1 hwhole
    obtain ⟨h, rfl⟩ := whole.exists_fill_eq he
    exact ⟨.init t x h pos, rfl⟩
  | .ifThen c b pos, whole, e, hwhole, he => by
    rcases List.mem_cons.1 hwhole with rfl | hwhole
    · obtain ⟨h, rfl⟩ := whole.exists_fill_eq he
      exact ⟨.ifThenCond h b pos, rfl⟩
    · obtain ⟨h, rfl⟩ := b.exists_fill_eq hwhole he
      exact ⟨.ifThenBody c h pos, rfl⟩
  | .ifElse c b a pos, whole, e, hwhole, he => by
    rcases List.mem_cons.1 hwhole with rfl | hwhole
    · obtain ⟨h, rfl⟩ := whole.exists_fill_eq he
      exact ⟨.ifElseCond h b a pos, rfl⟩
    -- behind the condition, the place is in the body or in the alternative
    rcases List.mem_append.1 hwhole with hwhole | hwhole
    · obtain ⟨h, rfl⟩ := b.exists_fill_eq hwhole he
      exact ⟨.ifElseBody c h a pos, rfl⟩
    · obtain ⟨h, rfl⟩ := a.exists_fill_eq hwhole he
      exact ⟨.ifElseAlternative c b h pos, rfl⟩
  | .loop c b pos, whole, e, hwhole, he => by
    rcases List.mem_cons.1 hwhole with rfl | hwhole
    · obtain ⟨h, rfl⟩ := whole.exists_fill_eq he
      exact ⟨.loopCond h b pos, rfl⟩
    · obtain ⟨h, rfl⟩ := b.exists_fill_eq hwhole he
      exact ⟨.loopBody c h pos, rfl⟩
  | .ret (some c) pos, whole, e, hwhole, he => by
    obtain rfl := List.mem_singleton.1 hwhole
    obtain ⟨h, rfl⟩ := whole.exists_fill_eq he
    exact ⟨.ret h pos, rfl⟩

/-- Every part of an expression of a block fills a `Hole` of the block. -/
theorem Block.exists_fill_eq : ∀ (b : Block) {whole e : Expr}, whole ∈ b.exprs → e ∈ whole.parts →
    ∃ h : Block.Hole, h.fill e = b
  | .mk ss pos, whole, e, hwhole, he => by
    obtain ⟨before, h, after, rfl⟩ := Stmt.exists_fill_mem ss hwhole he
    exact ⟨.mk before h after pos, rfl⟩

theorem Stmt.exists_fill_mem : ∀ (ss : List Stmt) {whole e : Expr}, whole ∈ Stmt.exprsAll ss →
    e ∈ whole.parts →
    ∃ (before : List Stmt) (h : Stmt.Hole) (after : List Stmt), before ++ h.fill e :: after = ss
  | s :: ss, whole, e, hwhole, he => by
    rcases List.mem_append.1 hwhole with hwhole | hwhole
    · obtain ⟨h, rfl⟩ := s.exists_fill_eq hwhole he
      exact ⟨[], h, ss, rfl⟩
    · obtain ⟨before, h, after, rfl⟩ := Stmt.exists_fill_mem ss hwhole he
      exact ⟨s :: before, h, after, rfl⟩

end

/-! ### Functions and programs -/

/-- A function with an open place. -/
structure Function.Hole where
  result : Ty
  name : String
  params : List Param
  body : Block.Hole
  pos : Pos

/-- The function with `e` in the open place. -/
def Function.Hole.fill (e : Expr) (h : Function.Hole) : Function :=
  ⟨h.result, h.name, h.params, h.body.fill e, h.pos⟩

/-- A program with an open place. -/
structure Program.Hole where
  before : List Function
  function : Function.Hole
  after : List Function
  pos : Pos

/-- The program with `e` in the open place. -/
def Program.Hole.fill (e : Expr) (h : Program.Hole) : Program :=
  ⟨h.before ++ h.function.fill e :: h.after, h.pos⟩

/-- The expressions that fill a `Hole` of a program are the parts of those that it evaluates. -/
theorem Program.exists_fill_eq_iff {p : Program} {e : Expr} :
    (∃ h : Program.Hole, h.fill e = p) ↔
      ∃ f ∈ p.functions, ∃ whole ∈ f.body.exprs, e ∈ whole.parts := by
  constructor
  · rintro ⟨h, rfl⟩
    refine ⟨h.function.fill e, ?_, h.function.body.mem_parts_fill e⟩
    exact List.mem_append_right _ (List.mem_cons_self ..)
  · rintro ⟨f, hf, whole, hwhole, he⟩
    -- the function splits the others into those in front of it and those behind
    obtain ⟨before, after, hsplit⟩ := List.append_of_mem hf
    obtain ⟨h, hbody⟩ := f.body.exists_fill_eq hwhole he
    refine ⟨⟨before, ⟨f.result, f.name, f.params, h, f.pos⟩, after, p.pos⟩, ?_⟩
    rw [Program.Hole.fill, Function.Hole.fill, hbody, ← hsplit]

end Tricode
