import Tricode.Proofs.Outline

/-!
# Trees of bounded height

Whatever the tokens are, the program that the parser gives back is not high: its expressions have a
depth of at most 200, its blocks are nested at most 50 deep, and no way through its outline, from
the root to a leaf, has more than 303 nodes (`bounded_parse`). Everything that walks over a tree can
therefore do so by recursion.

The first two bounds are kept by the rules by which the parser builds trees (`exprRules_exact`,
`stmtRules_low`), since the depth that it records for an expression is the depth of the expression.
The third follows from them: a block adds two levels to what is nested in it, its own and that of
the statement around it.
-/

namespace Tricode

/-! ### Nesting -/

mutual

/-- How deep blocks are nested in a statement. -/
def Stmt.nesting : Stmt → Nat
  | .expr .. => 0
  | .declare .. => 0
  | .ifThen _ b _ => b.nesting
  | .ifElse _ b a _ => max b.nesting a.nesting
  | .loop _ b _ => b.nesting
  | .ret .. => 0

/-- How deep blocks are nested in a block, itself counted. -/
def Block.nesting : Block → Nat
  | .mk ss _ => Stmt.nestings ss + 1

/-- How deep blocks are nested in statements. -/
def Stmt.nestings : List Stmt → Nat
  | [] => 0
  | s :: ss => max s.nesting (Stmt.nestings ss)

end

/-- Statements are nested no deeper than each of them, by `nestings`. -/
theorem Stmt.nestings_le {ss : List Stmt} {room : Nat} (h : ∀ s ∈ ss, s.nesting ≤ room) :
    Stmt.nestings ss ≤ room := by
  induction ss with
  | nil => exact Nat.zero_le room
  | cons s ss ih =>
    obtain ⟨hs, hss⟩ := List.forall_mem_cons.1 h
    exact Nat.max_le.2 ⟨hs, ih hss⟩

/-! ### What the parser keeps within bounds -/

/-- The depth that was recorded for an expression is its depth, and is in bounds. -/
structure Measured.Exact (m : Measured) : Prop where
  recorded : m.depth = m.expr.depth
  bounded : m.expr.depth ≤ Parser.maxDepth

/-- The statement's blocks fit into the room, and its expressions are not too deep. -/
structure Stmt.Low (room : Nat) (s : Stmt) : Prop where
  nesting : s.nesting ≤ room
  depth : ∀ e ∈ s.exprs, e.depth ≤ Parser.maxDepth

/-- The block fits into the room, and its expressions are not too deep. -/
structure Block.Low (room : Nat) (b : Block) : Prop where
  nesting : b.nesting ≤ room
  depth : ∀ e ∈ b.exprs, e.depth ≤ Parser.maxDepth

/-- A block of `Low` statements has one level more than they have. -/
theorem Block.low_mk {room : Nat} {ss : List Stmt} (h : ∀ s ∈ ss, s.Low room) (pos : Pos) :
    (Block.mk ss pos).Low (room + 1) := by
  constructor
  · have hle : Stmt.nestings ss ≤ room := Stmt.nestings_le fun s hs => (h s hs).nesting
    exact Nat.succ_le_succ hle
  · intro e he
    obtain ⟨s, hs, he⟩ := Stmt.mem_exprsAll.1 he
    exact (h s hs).depth e he

namespace Parser

theorem exact_leaf {e : Expr} (h : e.depth = 0) : (leaf e).Exact :=
  ⟨h.symm, h ▸ Nat.zero_le maxDepth⟩

/-- A depth that is recorded as one more than what lies below is `Exact` if that was right. -/
theorem exact_compound {e : Expr} {below : Nat} (hdepth : e.depth = below + 1)
    (hbelow : below < maxDepth) : (Measured.mk e (below + 1)).Exact := by
  refine ⟨hdepth.symm, ?_⟩
  show e.depth ≤ maxDepth
  omega

/-- Wherever a compound expression is built, its recorded depth is `Exact` if those of its operands
are. -/
theorem exprRules_exact : ExprRules (.all fun _ => True) Measured.Exact where
  literal _ _ _ := exact_leaf rfl
  ident _ _ := exact_leaf rfl
  unary := by
    intro op operand _ _ hoperand hbelow
    refine exact_compound ?_ hbelow
    rw [Expr.depth, hoperand.recorded]
  binary := by
    intro ops op left right _ _ _ hleft hright hbelow
    refine exact_compound ?_ hbelow
    rw [Expr.depth, hleft.recorded, hright.recorded]
  call := by
    intro callee args hcallee hargs hbelow
    refine exact_compound ?_ hbelow
    rw [Expr.depth, foldl_max_depth args fun arg harg =>
      (hargs arg harg).recorded, hcallee.recorded]
  assign := by
    intro target value x pos _ _ hvalue hbelow
    refine exact_compound ?_ hbelow
    rw [Expr.depth, hvalue.recorded]

theorem depth_le_of_mem_toList {m? : Option Measured} (h : ∀ m ∈ m?, m.Exact) :
    ∀ e ∈ (m?.map Measured.expr).toList, e.depth ≤ maxDepth := by
  intro e he
  obtain ⟨m, hm, rfl⟩ := Option.map_eq_some_iff.1 (Option.mem_toList.1 he)
  exact (h m hm).bounded

/-- Wherever a statement is built, it is `Low` if its blocks are. -/
theorem stmtRules_low : StmtRules (.all fun _ => True) Measured.Exact Stmt.Low Block.Low where
  expr _ he := ⟨Nat.zero_le _, List.forall_mem_singleton.2 he.bounded⟩
  declare _ _ _ hinit := ⟨Nat.zero_le _, depth_le_of_mem_toList hinit⟩
  ifThen _ hcond hbody := ⟨hbody.nesting, List.forall_mem_cons.2 ⟨hcond.bounded, hbody.depth⟩⟩
  ifElse _ hcond hbody ha :=
    ⟨Nat.max_le.2 ⟨hbody.nesting, ha.nesting⟩,
      List.forall_mem_cons.2 ⟨hcond.bounded, List.forall_mem_append.2 ⟨hbody.depth, ha.depth⟩⟩⟩
  loop _ hcond hbody := ⟨hbody.nesting, List.forall_mem_cons.2 ⟨hcond.bounded, hbody.depth⟩⟩
  ret _ hvalue := ⟨Nat.zero_le _, depth_le_of_mem_toList hvalue⟩
  block _ hss := Block.low_mk hss _

theorem functionRules_low :
    FunctionRules (.all fun _ => True) (Block.Low maxNesting) (fun _ => True)
    fun f => f.body.Low maxNesting where
  param _ _ _ := trivial
  function _ _ _ _ hbody := hbody

/-- The functions that the parser finds are `Low`. -/
theorem low_of_mem_parse {ts : List Token} {f : Function} (hf : f ∈ (parse ts).1.functions) :
    f.body.Low maxNesting :=
  functions_parse exprRules_exact stmtRules_low functionRules_low (fun _ _ => trivial) f hf

/-- Whenever the parser gives an expression, the depth that it has recorded is right. -/
def Records (p : Parser Measured) : Prop :=
  ∀ ts m, (p ts).value = .ok m → m.Exact

/-- Any list, compared with itself. -/
def anything : Alignment := (Keeping.all fun _ => True).alignment

theorem taken_anything (t : Token) : anything.Taken t t :=
  Keeping.taken_iff.2 ⟨rfl, Keeping.begins_all.2 trivial⟩

/-- What `Agrees` with itself on exact depths `Records` them. -/
theorem records_of_agrees {p : Parser Measured} (h : anything.Agrees p p (Same Measured.Exact)) :
    Records p :=
  fun _ _ hm => holds_of_agrees h (fun _ _ => trivial) hm

/-- Where the parser for expressions with this room puts an expression together, the depth that it
records is right: for a call behind its callee, for prefix operators in front of their operand, for
an operation of each level behind its left operand, and for assignments; and so it is for what each
of its categories gives. -/
structure RecordsDepths (room : Nat) : Prop where
  arguments : ∀ (callee : Measured) (paren : Token), callee.Exact →
    Records (arguments (inside room) callee paren)
  prefixes : ∀ (ops : List Token) (operand : Measured), operand.Exact →
    (∀ op ∈ ops, op.tag ∈ [.logicalNot, .minus]) →
      Records (ops.foldlM (fun operand op =>
        compound (.unary op.text operand.expr op.pos) operand.depth op) operand)
  operation : ∀ (k : Nat) (ops : List Tag) (left : Measured) (op : Token), left.Exact →
    levels[k]? = some ops → op.tag ∈ ops →
      Records (operation (binary (inside room) (levels.drop (k + 1))) left op)
  primary : Records (primary (inside room))
  call : Records (call (inside room))
  unary : Records (unary (inside room))
  binary : ∀ k, Records (binary (inside room) (levels.drop k))
  expression : Records (expression room)

/-- Every parser for expressions `RecordsDepths`. -/
theorem recordsDepths (room : Nat) : RecordsDepths room := by
  have hlaws : ExprPairing anything (Same Measured.Exact) := exprRules_exact.pairing
  have hinside := inner_inside hlaws room
  -- the levels are those from some level on, so the statement is about a rest of the table
  have hbinary : ∀ k, anything.Agrees (binary (inside room) (levels.drop k))
      (binary (inside room) (levels.drop k)) (Same Measured.Exact) :=
    fun k => agrees_binary hlaws hinside fun _ => List.mem_of_mem_drop
  exact {
    arguments := fun _ paren hcallee => records_of_agrees
      (agrees_arguments hlaws hinside ⟨rfl, hcallee⟩ (taken_anything paren).front)
    prefixes := fun ops _ hoperand hops => records_of_agrees <| by
      have htaken : ∀ op ∈ ops, anything.Taken op op ∧ op.tag ∈ [Tag.logicalNot, .minus] :=
        fun op hop => ⟨taken_anything op, hops op hop⟩
      exact agrees_prefixes hlaws (List.forall₂_same.2 htaken) ⟨rfl, hoperand⟩
    operation := fun k _ _ op hleft hops htag => records_of_agrees
      (agrees_operation hlaws (List.mem_of_getElem? hops) (hbinary (k + 1)) ⟨rfl, hleft⟩
        (taken_anything op) htag)
    primary := records_of_agrees (agrees_primary hlaws hinside)
    call := records_of_agrees (agrees_call hlaws hinside)
    unary := records_of_agrees (agrees_unary hlaws hinside)
    binary := fun k => records_of_agrees (hbinary k)
    expression := records_of_agrees (agrees_expression hlaws room) }

end Parser

/-! ### Heights of outlines -/

namespace Outline

mutual

/-- The number of nodes on the longest way from the root to a leaf. -/
def height : Outline → Nat
  | absent => 0
  | node _ _ _ children _ => heights children + 1

/-- The number of nodes on the longest way from one of the roots to a leaf. -/
def heights : List Outline → Nat
  | [] => 0
  | o :: os => max o.height (heights os)

end

/-- The `heights` of outlines are no greater than each of them. -/
theorem heights_le {os : List Outline} {h : Nat} (hos : ∀ o ∈ os, o.height ≤ h) :
    heights os ≤ h := by
  induction os with
  | nil => exact Nat.zero_le h
  | cons o os ih =>
    obtain ⟨ho, hrest⟩ := List.forall_mem_cons.1 hos
    exact Nat.max_le.2 ⟨ho, ih hrest⟩

end Outline

open Outline

mutual

/-- The `outline` of an expression is one node higher than the expression is deep. -/
theorem Expr.height_outline (e : Expr) : e.outline.height ≤ e.depth + 1 := by
  match e with
  | .literal .. => exact Nat.le_refl 1
  | .ident .. => exact Nat.le_refl 1
  | .unary op e pos =>
    have he := e.height_outline
    simp only [outline, height, heights, depth]
    omega
  | .binary op l r pos =>
    have hl := l.height_outline
    have hr := r.height_outline
    simp only [outline, height, heights, depth]
    omega
  | .call f args pos =>
    have hf := f.height_outline
    have hargs := Expr.heights_outlines args
    simp only [outline, height, heights, depth]
    omega
  | .assign x e pos =>
    have he := e.height_outline
    simp only [outline, height, heights, depth]
    omega

/-- The `outlines` of expressions are one node higher than the expressions are deep. -/
theorem Expr.heights_outlines (es : List Expr) : heights (outlines es) ≤ depths es + 1 := by
  match es with
  | [] => exact Nat.zero_le _
  | e :: es =>
    have he := e.height_outline
    have hes := Expr.heights_outlines es
    simp only [outlines, heights, depths]
    omega

end

/-- An expression that need not be there is no higher than it is deep. -/
theorem Expr.heights_optional {e? : Option Expr} {d : Nat} (h : ∀ e ∈ e?.toList, e.depth ≤ d) :
    heights (e?.toList.map outline) ≤ d + 1 :=
  heights_le (List.forall_mem_map.2 fun e he =>
    Nat.le_trans e.height_outline (Nat.succ_le_succ (h e he)))

mutual

/-- The `outline` of a statement is two nodes higher than its expressions are deep, and two more for
each block that is nested in it. -/
theorem Stmt.height_outline {d : Nat} (s : Stmt) (h : ∀ e ∈ s.exprs, e.depth ≤ d) :
    s.outline.height ≤ 2 * s.nesting + d + 2 := by
  match s with
  | .expr e pos =>
    have he := e.height_outline
    have hdepth : e.depth ≤ d := h e (by simp [Stmt.exprs])
    simp only [Stmt.outline, height, heights]
    omega
  | .declare type x init pos =>
    have hinit := Expr.heights_optional h
    simp only [Stmt.outline, height]
    omega
  | .ifThen c b pos =>
    obtain ⟨hdepth, hb⟩ := List.forall_mem_cons.1 h
    have hc := c.height_outline
    have hbody := b.height_outline hb
    simp only [Stmt.outline, height, heights, Stmt.nesting]
    omega
  | .ifElse c b a pos =>
    obtain ⟨hdepth, hba⟩ := List.forall_mem_cons.1 h
    obtain ⟨hb, ha⟩ := List.forall_mem_append.1 hba
    have hc := c.height_outline
    have hbody := b.height_outline hb
    have halternative := a.height_outline ha
    simp only [Stmt.outline, height, heights, Stmt.nesting]
    omega
  | .loop c b pos =>
    obtain ⟨hdepth, hb⟩ := List.forall_mem_cons.1 h
    have hc := c.height_outline
    have hbody := b.height_outline hb
    simp only [Stmt.outline, height, heights, Stmt.nesting]
    omega
  | .ret value pos =>
    have hvalue := Expr.heights_optional h
    simp only [Stmt.outline, height]
    omega

/-- The `outline` of a block is one node higher than its expressions are deep, and two more for each
block that is nested in it. -/
theorem Block.height_outline {d : Nat} (b : Block) (h : ∀ e ∈ b.exprs, e.depth ≤ d) :
    b.outline.height ≤ 2 * b.nesting + d + 1 := by
  match b with
  | .mk ss pos =>
    have hss := Stmt.heights_outlines ss h
    simp only [Block.outline, height, Block.nesting]
    omega

theorem Stmt.heights_outlines {d : Nat} (ss : List Stmt) (h : ∀ e ∈ Stmt.exprsAll ss, e.depth ≤ d) :
    heights (Stmt.outlines ss) ≤ 2 * Stmt.nestings ss + d + 2 := by
  match ss with
  | [] => exact Nat.zero_le _
  | s :: ss =>
    obtain ⟨hs, hss⟩ := List.forall_mem_append.1 h
    have hfirst := s.height_outline hs
    have hrest := Stmt.heights_outlines ss hss
    simp only [Stmt.outlines, heights, Stmt.nestings]
    omega

end

/-- A function whose body is `Low` has an `outline` that is bounded by the room. -/
theorem Function.height_outline {f : Function} {room : Nat} (h : f.body.Low room) :
    f.outline.height ≤ 2 * room + Parser.maxDepth + 2 := by
  have hparams : heights (f.params.map Param.outline) ≤ 1 :=
    heights_le (List.forall_mem_map.2 fun _ _ => Nat.le_refl 1)
  have hbody := f.body.height_outline h.depth
  have hnesting := h.nesting
  simp only [outline, height, heights, Parser.maxDepth] at hbody ⊢
  omega

/-! ### Programs -/

/-- The expressions of a program have at most 200 compound expressions on a way down, its blocks are
nested at most 50 deep, and its outline has at most 303 nodes on a way down. -/
structure Program.Bounded (p : Program) : Prop where
  depth : ∀ f ∈ p.functions, ∀ e ∈ f.body.exprs, e.depth ≤ 200
  nesting : ∀ f ∈ p.functions, f.body.nesting ≤ 50
  outline : p.toNode.outline = .ok p.outline
  height : p.outline.height ≤ 303

/-- A program whose functions are `Low` is `Bounded`. -/
theorem Program.bounded_of_low {p : Program} (h : ∀ f ∈ p.functions, f.body.Low Parser.maxNesting) :
    p.Bounded := by
  have hfunctions : heights (p.functions.map Function.outline) ≤ 302 :=
    heights_le (List.forall_mem_map.2 fun f hf => Function.height_outline (h f hf))
  refine ⟨fun f hf => (h f hf).depth, fun f hf => (h f hf).nesting, ?_, ?_⟩
  · rw [p.outline_eq]
    exact p.outline_toNode
  · rw [p.outline_eq, height]
    omega

/-- Whatever the tokens are, the program that the parser finds is `Bounded`, and wherever the parser
puts an expression together, the depth that it records, `RecordsDepths`, is the depth of the
expression. -/
theorem bounded_parse (ts : List Token) :
    (parse ts).1.Bounded ∧ ∀ room, Parser.RecordsDepths room :=
  ⟨Program.bounded_of_low fun _ => Parser.low_of_mem_parse, Parser.recordsDepths⟩

/-- A function with 49 loops in one another and, in the innermost, a number behind 200 minus
signs. -/
def deepest : List Token :=
  let front : List Token :=
    [⟨.keyword, "int", ⟨1, 1⟩⟩, ⟨.identifier, "f", ⟨1, 1⟩⟩, ⟨.leftParen, "(", ⟨1, 1⟩⟩,
      ⟨.rightParen, ")", ⟨1, 1⟩⟩, ⟨.leftBrace, "\x7b", ⟨1, 1⟩⟩]
  let opening : List Token :=
    [⟨.keyword, "while", ⟨1, 1⟩⟩, ⟨.leftParen, "(", ⟨1, 1⟩⟩, ⟨.intLiteral, "1", ⟨1, 1⟩⟩,
      ⟨.rightParen, ")", ⟨1, 1⟩⟩, ⟨.leftBrace, "\x7b", ⟨1, 1⟩⟩]
  front ++ (List.replicate 49 opening).flatten ++ List.replicate 200 ⟨.minus, "-", ⟨1, 1⟩⟩ ++
    [⟨.intLiteral, "1", ⟨1, 1⟩⟩, ⟨.semicolon, ";", ⟨1, 1⟩⟩] ++
    List.replicate 50 ⟨.rightBrace, "\x7d", ⟨1, 1⟩⟩

/-- The `height` is reached by a program in which nothing is wrong. -/
theorem bounded_deepest :
    (parse deepest).1.Bounded ∧ (parse deepest).2 = [] ∧ (parse deepest).1.outline.height = 303 :=
  ⟨(bounded_parse deepest).1, List.isEmpty_iff.1 (by decide +kernel), by decide +kernel⟩

end Tricode
