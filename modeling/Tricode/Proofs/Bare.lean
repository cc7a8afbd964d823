import Tricode.Lowering
import Tricode.Proofs.Names
import Tricode.Proofs.Parser.Correspondence
import Tricode.Symbol

/-!
# Trees without positions

Two token lists, two trees or two symbol tables that differ in their positions only become the same
when all positions are taken away (`bare`). The parser reads positions only to pass them on: from
lists that are the same without positions it gives programs that are the same without positions, and
findings with the same causes (`parse_bare`). Lowering does not look at positions at all
(`generate_bare`).
-/

namespace Tricode

/-- The position of what has none. -/
def Pos.nowhere : Pos := ⟨0, 0⟩

/-- The token without its position. -/
def Token.bare (t : Token) : Token :=
  { t with pos := .nowhere }

/-! ### Trees -/

namespace Expr

mutual

/-- The expression without positions. -/
def bare : Expr → Expr
  | literal kind text _ => .literal kind text .nowhere
  | ident x _ => .ident x .nowhere
  | unary op e _ => .unary op e.bare .nowhere
  | binary op l r _ => .binary op l.bare r.bare .nowhere
  | call f args _ => .call f.bare (bareAll args) .nowhere
  | assign x e _ => .assign x e.bare .nowhere

/-- Expressions without positions. -/
def bareAll : List Expr → List Expr
  | [] => []
  | e :: es => e.bare :: bareAll es

end

theorem bareAll_eq_map (es : List Expr) : bareAll es = es.map bare := by
  induction es with
  | nil => rfl
  | cons e es ih => rw [bareAll, ih, List.map_cons]

end Expr

mutual

/-- The statement without positions. -/
def Stmt.bare : Stmt → Stmt
  | .expr e _ => .expr e.bare .nowhere
  | .declare t x init _ => .declare t x (init.map Expr.bare) .nowhere
  | .ifThen c b _ => .ifThen c.bare b.bare .nowhere
  | .ifElse c b a _ => .ifElse c.bare b.bare a.bare .nowhere
  | .loop c b _ => .loop c.bare b.bare .nowhere
  | .ret value _ => .ret (value.map Expr.bare) .nowhere

/-- The block without positions. -/
def Block.bare : Block → Block
  | .mk ss _ => .mk (Stmt.bareAll ss) .nowhere

/-- Statements without positions. -/
def Stmt.bareAll : List Stmt → List Stmt
  | [] => []
  | s :: ss => s.bare :: Stmt.bareAll ss

end

theorem Stmt.bareAll_eq_map (ss : List Stmt) : Stmt.bareAll ss = ss.map Stmt.bare := by
  induction ss with
  | nil => rfl
  | cons s ss ih => rw [Stmt.bareAll, ih, List.map_cons]

/-- The parameter without its position. -/
def Param.bare (p : Param) : Param :=
  { p with pos := .nowhere }

/-- The function without positions. -/
def Function.bare (f : Function) : Function :=
  ⟨f.result, f.name, f.params.map Param.bare, f.body.bare, .nowhere⟩

/-- The program without positions. -/
def Program.bare (p : Program) : Program :=
  ⟨p.functions.map Function.bare, .nowhere⟩

/-! ### Symbols -/

/-- What a function takes and gives, without positions. -/
def Signature.bare (s : Signature) : Signature :=
  { s with params := s.params.map Param.bare }

/-- The role without positions. -/
def Role.bare : Role → Role
  | .function signature => .function signature.bare
  | role => role

/-- The symbol without positions. -/
def Symbol.bare (s : Symbol) : Symbol :=
  ⟨s.name, s.type, s.role.bare, .nowhere⟩

/-- The scope without positions. -/
def Scope.bare (s : Scope) : Scope :=
  { s with symbols := s.symbols.map Symbol.bare }

/-- The table without positions. -/
def SymbolTable.bare (t : SymbolTable) : SymbolTable :=
  { t with globals := t.globals.bare, locals := t.locals.map Scope.bare }

/-! ### Parsing -/

/-- Lists whose elements agree under `f` have the same image. -/
theorem map_eq_of_forall₂ {α β : Type} {f : α → β} {as bs : List α}
    (h : List.Forall₂ (fun a b => f a = f b) as bs) : as.map f = bs.map f := by
  induction h with
  | nil => rfl
  | cons hab _ ih => rw [List.map_cons, List.map_cons, hab, ih]

namespace Parser

/-- Lists that are the same without positions. What is reported has the same causes. -/
def layout : Alignment where
  states ts us := ts.map Token.bare = us.map Token.bare
  entries f g := f.cause = g.cause
  length_eq h := by simpa using congrArg List.length h
  tag_eq {ts us} h := by
    cases ts <;> cases us <;> simp_all [next, Token.bare]
  text_eq {ts us} h := by
    cases ts <;> cases us <;> simp_all [next, Token.bare]
  tail h _ := by rw [List.map_tail, List.map_tail, h]
  entry _ _ := rfl

/-- Expressions that are the same without positions, with the same depth recorded. -/
structure SameBare (m n : Measured) : Prop where
  depth : m.depth = n.depth
  expr : m.expr.bare = n.expr.bare

/-- Arguments that are `SameBare` in pairs are the same as lists, up to positions. -/
theorem bareAll_eq {ms ns : List Measured} (h : List.Forall₂ SameBare ms ns) :
    Expr.bareAll (ms.map Measured.expr) = Expr.bareAll (ns.map Measured.expr) := by
  induction h with
  | nil => rfl
  | cons hmn _ ih => simp only [List.map_cons, Expr.bareAll, hmn.expr, ih]

/-- Both tokens of a `TakenPair` have the same texts on both sides. -/
theorem texts_eq {t n u k : Token} (h : layout.TakenPair t n u k) :
    t.text = u.text ∧ n.text = k.text := by
  obtain ⟨ts, us, h⟩ := h
  obtain ⟨htype, hrest⟩ := List.cons.inj h
  have htext : t.bare.text = u.bare.text := congrArg Token.text htype
  have hname : n.bare.text = k.bare.text := congrArg Token.text (List.cons.inj hrest).1
  exact ⟨htext, hname⟩

/-- Expressions with the same `bare` expression are names at the same time, and the same one. -/
theorem name?_rel_of_bare {e e' : Expr} (h : e.bare = e'.bare) :
    Option.Rel (fun x y => x.1 = y.1) e.name? e'.name? := by
  cases e <;> cases e' <;> simp_all [Expr.bare, Expr.name?]

/-- Expressions built from tokens that differ in their positions are `SameBare`. -/
theorem exprPairing_bare : ExprPairing layout SameBare where
  depth_eq h := h.depth
  named := by
    intro m n h
    have hnames := name?_rel_of_bare h.expr
    generalize m.expr.name? = x? at hnames ⊢
    generalize n.expr.name? = y? at hnames ⊢
    cases hnames with
    | none => exact .none
    | some _ => exact .some trivial
  literal kind ht _ := ⟨rfl, by simp only [leaf, Expr.bare, ht.front.text_eq]⟩
  ident ht _ := ⟨rfl, by simp only [leaf, Expr.bare, ht.front.text_eq]⟩
  unary ht _ hm _ := ⟨by rw [hm.depth], by simp only [Expr.bare, ht.front.text_eq, hm.expr]⟩
  binary _ ht _ hl hr _ :=
    ⟨by rw [hl.depth, hr.depth], by simp only [Expr.bare, ht.front.text_eq, hl.expr, hr.expr]⟩
  call hf hargs _ :=
    ⟨by rw [hf.depth, foldl_depth_eq (fun _ _ => SameBare.depth) hargs],
      by simp only [Expr.bare, hf.expr, bareAll_eq hargs]⟩
  assign := by
    intro m n v v' x y p q hm hx hy hv _
    -- the targets are the same up to positions, and so the names are the same
    have hnames := name?_rel_of_bare hm.expr
    rw [hx, hy] at hnames
    cases hnames with
    | some hname =>
      obtain rfl : x = y := hname
      exact ⟨by rw [hv.depth], by simp only [Expr.bare, hv.expr]⟩

theorem map_bare_eq {m? n? : Option Measured} (h : Option.Rel SameBare m? n?) :
    (m?.map Measured.expr).map Expr.bare = (n?.map Measured.expr).map Expr.bare := by
  cases h with
  | none => rfl
  | some h => simp only [Option.map_some, h.expr]

/-- Statements built from tokens that differ in their positions have the same `bare` statement. -/
theorem stmtPairing_bare : StmtPairing layout SameBare (fun _ s s' => s.bare = s'.bare)
    (fun _ b b' => b.bare = b'.bare) where
  expr _ hm := by simp only [Stmt.bare, hm.expr]
  declare ht _ _ hinit := by
    obtain ⟨htype, hname⟩ := texts_eq ht
    simp only [Stmt.bare, htype, hname, map_bare_eq hinit]
  ifThen _ hc hb := by simp only [Stmt.bare, hc.expr, hb]
  ifElse _ hc hb ha := by simp only [Stmt.bare, hc.expr, hb, ha]
  loop _ hc hb := by simp only [Stmt.bare, hc.expr, hb]
  ret _ hvalue := by simp only [Stmt.bare, map_bare_eq hvalue]
  block _ hss := by simp only [Block.bare, Stmt.bareAll_eq_map, map_eq_of_forall₂ hss]

/-- Functions built from tokens that differ in their positions have the same `bare` function. -/
theorem functionPairing_bare : FunctionPairing layout (fun b b' => b.bare = b'.bare)
    (fun p p' => p.bare = p'.bare) (fun f f' => f.bare = f'.bare) where
  param ht _ _ := by
    obtain ⟨htype, hname⟩ := texts_eq ht
    simp only [Param.bare, htype, hname]
  function ht _ _ hparams hbody := by
    obtain ⟨htype, hname⟩ := texts_eq ht
    simp only [Function.bare, htype, hname, hbody, map_eq_of_forall₂ hparams]

end Parser

/-- From tokens that differ in their positions only, `parse` gives programs that differ in their
positions only, and reports the same. -/
theorem parse_bare {ts us : List Token} (h : ts.map Token.bare = us.map Token.bare) :
    (parse ts).1.bare = (parse us).1.bare ∧
      (parse ts).2.map Finding.cause = (parse us).2.map Finding.cause := by
  obtain ⟨hfunctions, hfindings⟩ := Parser.parse_aligned Parser.exprPairing_bare
    Parser.stmtPairing_bare Parser.functionPairing_bare (A := Parser.layout) h
  exact ⟨by simp only [Program.bare, map_eq_of_forall₂ hfunctions],
    map_eq_of_forall₂ hfindings⟩

/-! ### Lowering -/

namespace Lowering

/-- The node of a `bare` expression has the same name, or the same fault. -/
theorem name_bare (e : Expr) : e.bare.toNode.name = e.toNode.name := by
  cases e <;> rfl

mutual

/-- What `lowerExpr` does with an expression does not depend on its positions. -/
theorem lowerExpr_bare : ∀ e : Expr, lowerExpr e.bare.toNode = lowerExpr e.toNode
  | .literal .. => rfl
  | .ident .. => rfl
  | .unary op e _ => by
    simp only [Expr.bare, Expr.toNode, lowerExpr, lowerExpr_bare e]
  | .binary op l r _ => by
    simp only [Expr.bare, Expr.toNode, lowerExpr, lowerExpr_bare l, lowerExpr_bare r]
  | .call f args _ => by
    simp only [Expr.bare, Expr.toNode, lowerExpr, name_bare, lowerArgs_bare args]
  | .assign x e _ => by
    simp only [Expr.bare, Expr.toNode, lowerExpr, lowerExpr_bare e]
    rfl

theorem lowerArgs_bare : ∀ es : List Expr,
    lowerArgs (Expr.toNodes (Expr.bareAll es)) = lowerArgs (Expr.toNodes es)
  | [] => rfl
  | e :: es => by
    simp only [Expr.bareAll, Expr.toNodes, lowerArgs, lowerExpr_bare e, lowerArgs_bare es]

end

mutual

/-- What `lower` does with a statement does not depend on its positions. -/
theorem lower_bare : ∀ s : Stmt, lower s.bare.toNode = lower s.toNode
  | .expr e _ => by simp only [Stmt.bare, Stmt.toNode, lower, lowerExpr_bare e]
  | .declare _ _ none _ => rfl
  | .declare _ x (some e) _ => by
    simp only [Stmt.bare, Option.map_some, Stmt.toNode, Node.ofExpr?, lower, Expr.isAbsent_toNode,
      lowerExpr_bare e]
  | .ifThen c b _ => by
    simp only [Stmt.bare, Stmt.toNode, lower, lowerExpr_bare c, lower_bareBlock b]
  | .ifElse c b a _ => by
    simp only [Stmt.bare, Stmt.toNode, lower, lowerExpr_bare c, lower_bareBlock b,
      lower_bareBlock a, Block.isAbsent_toNode]
  | .loop c b _ => by
    simp only [Stmt.bare, Stmt.toNode, lower, lowerExpr_bare c, lower_bareBlock b]
  | .ret none _ => rfl
  | .ret (some e) _ => by
    simp only [Stmt.bare, Option.map_some, Stmt.toNode, Node.ofExpr?, lower, Expr.isAbsent_toNode,
      lowerExpr_bare e]

theorem lower_bareBlock : ∀ b : Block, lower b.bare.toNode = lower b.toNode
  | .mk ss _ => by simp only [Block.bare, Block.toNode, lower, lowerAll_bare ss]

theorem lowerAll_bare : ∀ ss : List Stmt,
    lowerAll (Stmt.toNodes (Stmt.bareAll ss)) = lowerAll (Stmt.toNodes ss)
  | [] => rfl
  | s :: ss => by simp only [Stmt.bareAll, Stmt.toNodes, lowerAll, lower_bare s, lowerAll_bare ss]

end

theorem lowerAll_functions_bare (fs : List Function) :
    lowerAll ((fs.map Function.bare).map Function.toNode) = lowerAll (fs.map Function.toNode) := by
  induction fs with
  | nil => rfl
  | cons f fs ih =>
    simp only [List.map_cons, lowerAll, ih, Function.toNode, Function.bare, lower,
      lower_bareBlock f.body]

end Lowering

/-- `generate` does not look at positions: a program and its `bare` form have the same code. -/
theorem generate_bare (p : Program) : generate p.bare = generate p := by
  have h := Lowering.lowerAll_functions_bare p.functions
  simp only [generate, Program.toNode, Program.bare, Lowering.lower, h]

end Tricode
