import Tricode.Node

/-!
# Names and parts of programs

What a program says without running it: the expressions inside an expression (`Expr.parts`) and
inside a statement (`Stmt.exprs`), the names that an expression assigns (`Expr.assigned`), the
variables that a statement declares with their types (`Stmt.bindings`), the variables of a function
(`Function.variables`), and those of them that it declares or assigns (`Function.written`).

`Expr.Settled` says that no operand is overtaken: where an operand is a variable, or an assignment
to one, no later operand of the same operation or call assigns that variable.
-/

namespace Tricode

namespace Expr

mutual

/-- The expression and all expressions inside it. What is called is no part, since it is not
evaluated. -/
def parts : Expr → List Expr
  | literal kind text pos => [literal kind text pos]
  | ident x pos => [ident x pos]
  | unary op e pos => unary op e pos :: e.parts
  | binary op l r pos => binary op l r pos :: (l.parts ++ r.parts)
  | call f args pos => call f args pos :: partsAll args
  | assign x e pos => assign x e pos :: e.parts

/-- The expressions and all expressions inside them. -/
def partsAll : List Expr → List Expr
  | [] => []
  | e :: es => e.parts ++ partsAll es

end

theorem mem_partsAll {part : Expr} {es : List Expr} :
    part ∈ partsAll es ↔ ∃ e ∈ es, part ∈ e.parts := by
  induction es with
  | nil => simp [partsAll]
  | cons e es ih => simp [partsAll, ih]

theorem self_mem_parts (e : Expr) : e ∈ e.parts := by
  cases e <;> simp [parts]

/-- The operands of an expression: those expressions of which it needs the values. -/
def children : Expr → List Expr
  | literal .. => []
  | ident .. => []
  | unary _ e _ => [e]
  | binary _ l r _ => [l, r]
  | call _ args _ => args
  | assign _ e _ => [e]

/-- The `children` of an expression are parts of it. -/
theorem mem_parts_of_mem_children {e child : Expr} (h : child ∈ e.children) : child ∈ e.parts := by
  have hself := self_mem_parts child
  cases e with
  | literal | ident => simp [children] at h
  | unary | assign => simp_all [children, parts]
  | binary =>
    simp only [children, List.mem_cons, List.not_mem_nil, or_false] at h
    rcases h with rfl | rfl <;> simp [parts, hself]
  | call f args pos =>
    simp only [parts, List.mem_cons, mem_partsAll]
    exact .inr ⟨child, h, hself⟩

mutual

/-- The `parts` of a part are parts. -/
theorem mem_parts_trans : ∀ (e : Expr) {part inner : Expr}, part ∈ e.parts → inner ∈ part.parts →
    inner ∈ e.parts
  | literal .., part, inner, h, h' => by
    rw [parts, List.mem_singleton] at h
    exact h ▸ h'
  | ident .., part, inner, h, h' => by
    rw [parts, List.mem_singleton] at h
    exact h ▸ h'
  | unary op e pos, part, inner, h, h' => by
    rw [parts, List.mem_cons] at h
    -- the part is the whole itself, or a part of an operand
    rcases h with rfl | h
    · exact h'
    · exact List.mem_cons_of_mem _ (mem_parts_trans e h h')
  | binary op l r pos, part, inner, h, h' => by
    rw [parts, List.mem_cons, List.mem_append] at h
    rcases h with rfl | h | h
    · exact h'
    · exact List.mem_cons_of_mem _ (List.mem_append_left _ (mem_parts_trans l h h'))
    · exact List.mem_cons_of_mem _ (List.mem_append_right _ (mem_parts_trans r h h'))
  | call f args pos, part, inner, h, h' => by
    rw [parts, List.mem_cons] at h
    rcases h with rfl | h
    · exact h'
    · exact List.mem_cons_of_mem _ (mem_partsAll_trans args h h')
  | assign x e pos, part, inner, h, h' => by
    rw [parts, List.mem_cons] at h
    rcases h with rfl | h
    · exact h'
    · exact List.mem_cons_of_mem _ (mem_parts_trans e h h')

theorem mem_partsAll_trans : ∀ (es : List Expr) {part inner : Expr}, part ∈ partsAll es →
    inner ∈ part.parts → inner ∈ partsAll es
  | [], part, inner, h, h' => by simp [partsAll] at h
  | e :: es, part, inner, h, h' => by
    rw [partsAll, List.mem_append] at h
    rcases h with h | h
    · exact List.mem_append_left _ (mem_parts_trans e h h')
    · exact List.mem_append_right _ (mem_partsAll_trans es h h')

end

/-! ### Assignments -/

/-- The variable that an assignment assigns. -/
def target? : Expr → Option String
  | assign x _ _ => some x
  | _ => none

/-- The variables assigned in an expression. -/
def assigned (e : Expr) : List String :=
  e.parts.filterMap target?

/-- An operation has `assigned` what its operands have assigned. -/
theorem assigned_binary (op : String) (l r : Expr) (pos : Pos) :
    (binary op l r pos).assigned = l.assigned ++ r.assigned := by
  rw [assigned, parts, List.filterMap_cons_none rfl, List.filterMap_append]
  rfl

/-- The variable that an expression is or assigns, and in which its value is found. -/
def holder? : Expr → Option String
  | ident x _ => some x
  | assign x _ _ => some x
  | _ => none

/-- The value of the first operand is not overtaken by an assignment in the second. -/
def Outlasts (e later : Expr) : Prop :=
  ∀ x ∈ e.holder?, x ∉ later.assigned

/-- Where an expression `Outlasts` a later one, nothing in the later one assigns to what holds the
value. -/
theorem Outlasts.target?_ne {e later : Expr} (h : e.Outlasts later) {x : String}
    (hx : x ∈ e.holder?) : ∀ part ∈ later.parts, part.target? ≠ some x :=
  fun part hpart htarget => h x hx (List.mem_filterMap.2 ⟨part, hpart, htarget⟩)

/-- None of the operands of the expression is overtaken by a later one. -/
def OperandsLast : Expr → Prop
  | binary _ l r _ => l.Outlasts r
  | call _ args _ => args.Pairwise Outlasts
  | _ => True

/-- No operand in the expression is overtaken by a later one. -/
def Settled (e : Expr) : Prop :=
  ∀ part ∈ e.parts, part.OperandsLast

instance (e later : Expr) : Decidable (e.Outlasts later) :=
  inferInstanceAs (Decidable (∀ x ∈ e.holder?, x ∉ later.assigned))

instance : DecidablePred OperandsLast
  | binary _ l r _ => inferInstanceAs (Decidable (l.Outlasts r))
  | call _ args _ => inferInstanceAs (Decidable (args.Pairwise Outlasts))
  | literal .. => .isTrue trivial
  | ident .. => .isTrue trivial
  | unary .. => .isTrue trivial
  | assign .. => .isTrue trivial

instance : DecidablePred Settled :=
  fun e => inferInstanceAs (Decidable (∀ part ∈ e.parts, part.OperandsLast))

/-! ### Calls -/

/-- The name under which an expression is called. Only a name can be called. -/
def callee : Expr → String
  | ident x _ => x
  | _ => ""

/-- If the expression is a call, then of a name. -/
def CallsName : Expr → Prop
  | call f _ _ => ∃ x pos, f = ident x pos
  | _ => True

/-- Only names are called in the expression. -/
def CallsNames (e : Expr) : Prop :=
  ∀ part ∈ e.parts, part.CallsName

end Expr

/-! ### Statements and functions -/

/-- The statements of a block. -/
def Block.statements : Block → List Stmt
  | .mk ss _ => ss

mutual

/-- The expressions that a statement evaluates. -/
def Stmt.exprs : Stmt → List Expr
  | .expr e _ => [e]
  | .declare _ _ init _ => init.toList
  | .ifThen c b _ => c :: b.exprs
  | .ifElse c b a _ => c :: (b.exprs ++ a.exprs)
  | .loop c b _ => c :: b.exprs
  | .ret value _ => value.toList

/-- The expressions that a block evaluates. -/
def Block.exprs : Block → List Expr
  | .mk ss _ => Stmt.exprsAll ss

/-- The expressions that statements evaluate. -/
def Stmt.exprsAll : List Stmt → List Expr
  | [] => []
  | s :: ss => s.exprs ++ Stmt.exprsAll ss

end

mutual

/-- The variables that a statement declares. -/
def Stmt.declared : Stmt → List String
  | .declare _ x _ _ => [x]
  | .ifThen _ b _ => b.declared
  | .ifElse _ b a _ => b.declared ++ a.declared
  | .loop _ b _ => b.declared
  | _ => []

/-- The variables that a block declares. -/
def Block.declared : Block → List String
  | .mk ss _ => Stmt.declaredAll ss

/-- The variables that statements declare. -/
def Stmt.declaredAll : List Stmt → List String
  | [] => []
  | s :: ss => s.declared ++ Stmt.declaredAll ss

end

mutual

/-- The variables that a statement declares, with their types. -/
def Stmt.bindings : Stmt → List (String × Ty)
  | .declare t x _ _ => [(x, t)]
  | .ifThen _ b _ => b.bindings
  | .ifElse _ b a _ => b.bindings ++ a.bindings
  | .loop _ b _ => b.bindings
  | _ => []

/-- The variables that a block declares, with their types. -/
def Block.bindings : Block → List (String × Ty)
  | .mk ss _ => Stmt.bindingsAll ss

/-- The variables that statements declare, with their types. -/
def Stmt.bindingsAll : List Stmt → List (String × Ty)
  | [] => []
  | s :: ss => s.bindings ++ Stmt.bindingsAll ss

end

mutual

/-- The names in the `bindings` of a statement are those that it declares. -/
theorem Stmt.map_fst_bindings : ∀ s : Stmt, s.bindings.map Prod.fst = s.declared
  | .expr .. => rfl
  | .declare .. => rfl
  | .ifThen _ b _ => b.map_fst_bindings
  | .ifElse _ b a _ => by
    rw [Stmt.bindings, Stmt.declared, List.map_append, b.map_fst_bindings, a.map_fst_bindings]
  | .loop _ b _ => b.map_fst_bindings
  | .ret .. => rfl

theorem Block.map_fst_bindings : ∀ b : Block, b.bindings.map Prod.fst = b.declared
  | .mk ss _ => Stmt.map_fst_bindingsAll ss

theorem Stmt.map_fst_bindingsAll : ∀ ss : List Stmt,
    (Stmt.bindingsAll ss).map Prod.fst = Stmt.declaredAll ss
  | [] => rfl
  | s :: ss => by
    rw [Stmt.bindingsAll, Stmt.declaredAll, List.map_append, s.map_fst_bindings,
      Stmt.map_fst_bindingsAll ss]

end

theorem Stmt.mem_exprsAll {e : Expr} {ss : List Stmt} :
    e ∈ Stmt.exprsAll ss ↔ ∃ s ∈ ss, e ∈ s.exprs := by
  induction ss with
  | nil => simp [Stmt.exprsAll]
  | cons s ss ih => simp [Stmt.exprsAll, ih]

theorem Stmt.mem_bindingsAll {b : String × Ty} {ss : List Stmt} :
    b ∈ Stmt.bindingsAll ss ↔ ∃ s ∈ ss, b ∈ s.bindings := by
  induction ss with
  | nil => simp [Stmt.bindingsAll]
  | cons s ss ih =>
    rw [Stmt.bindingsAll, List.mem_append, ih]
    simp only [List.mem_cons, exists_eq_or_imp]

theorem Block.exprs_eq (b : Block) : b.exprs = Stmt.exprsAll b.statements := by
  cases b
  rfl

theorem Block.declared_eq (b : Block) : b.declared = Stmt.declaredAll b.statements := by
  cases b
  rfl

/-- The node of an expression is there: it never `isAbsent`. -/
theorem Expr.isAbsent_toNode (e : Expr) : e.toNode.isAbsent = false := by
  cases e <;> rfl

theorem Block.isAbsent_toNode (b : Block) : b.toNode.isAbsent = false := by
  cases b
  rfl

/-- The parameters and the local variables of a function. -/
def Function.variables (f : Function) : List String :=
  f.params.map Param.name ++ f.body.declared

/-- The variables that a function declares or assigns. -/
def Function.written (f : Function) : List String :=
  f.body.declared ++ f.body.exprs.flatMap Expr.assigned

/-- Only names are called in the functions of the program. -/
def Program.CallsNames (p : Program) : Prop :=
  ∀ f ∈ p.functions, ∀ e ∈ f.body.exprs, e.CallsNames

end Tricode
