import Tricode.Proofs.Lexemes
import Tricode.Proofs.Parser.Trees
import Tricode.Typing.Inference

/-!
# The trees that the parser builds

Whatever the tokens of a source text are, and however often the parser had to recover, the program
that it gives back is put together from known pieces (`shaped_parse`): its operators are those of
the language, variables and parameters have a type of values, and functions have one of the four
types.

The operators come from the tokens. A token made by hand could carry any text, but a scanned
operator is written the way its tag says (`Token.Faithful`), and no parser gives back a token that
was not there. Being made of known pieces is therefore kept by the rules by which the parser builds
its trees (`exprRules_known`, `stmtRules_shaped`).
-/

namespace Tricode

/-! ### Operators in tokens -/

/-- How the operator of a tag is written. -/
def Tag.operator? : Tag → Option String
  | plus => some "+"
  | minus => some "-"
  | multiply => some "*"
  | divide => some "/"
  | equal => some "=="
  | notEqual => some "!="
  | lessThan => some "<"
  | greaterThan => some ">"
  | lessEqual => some "<="
  | greaterEqual => some ">="
  | logicalAnd => some "&&"
  | logicalOr => some "||"
  | logicalNot => some "!"
  | _ => none

/-- If the token is an operator, it is written like that operator. -/
def Token.Faithful (t : Token) : Prop :=
  ∀ op ∈ t.tag.operator?, t.text = op

namespace Segment

/-- If the segment becomes an operator, it is written like that operator. -/
def Faithful : Segment → Prop
  | lexeme tag chars => ∀ op ∈ tag.operator?, String.ofList chars = op
  | _ => True

/-- A `mark` is `Faithful`: it has the text of its tag. -/
theorem faithful_mark (c : Char) : (mark c).Faithful := by
  unfold mark
  split
  · next tag htag =>
    intro op hop
    unfold markTag at htag
    split at htag <;> cases htag <;> cases hop <;> rfl
  · trivial

/-- The `first` segment of a text has the text of its tag, if it is an operator. -/
theorem faithful_first (c : Char) (cs : List Char) : (first c cs).1.Faithful := by
  unfold first
  split
  · trivial
  split
  · intro op hop
    rw [wordTag] at hop
    split at hop <;> cases hop
  split
  -- a number is no operator, with a point or without
  · unfold number
    split <;>
    · intro op hop
      cases hop
  split
  · split
    -- a pair of characters is the text of its tag, by the table
    · next tag htag =>
      intro op hop
      unfold pairTag at htag
      split at htag <;> cases htag <;> cases hop <;> rfl
    · exact faithful_mark c
  · exact faithful_mark c

end Segment

/-- The tokens of a `scan` are `Faithful`. -/
theorem faithful_of_mem_scan {source : String} {t : Token} (h : t ∈ (scan source).1) :
    t.Faithful := by
  rcases exists_of_mem_scan Segment.faithful_first h with htag | ⟨chars, htext, hfaithful⟩
  · rw [Token.Faithful, htag]
    exact fun _ hop => by cases hop
  · rw [Token.Faithful, htext]
    exact hfaithful

/-! ### Shapes -/

/-- The types of values. -/
def Ty.values : List Ty := [.int, .float, .bool]

/-- The types of functions. -/
def Ty.results : List Ty := [.int, .float, .bool, .void]

/-- The operators on one operand. -/
def Typing.unaryOps : List String := ["-", "!"]

/-- The operators on two operands. -/
def Typing.binaryOps : List String := arithmeticOps ++ equalityOps ++ orderOps ++ logicalOps

/-- If the expression is an operation, then one of the language. -/
def Expr.OperatorKnown : Expr → Prop
  | unary op _ _ => op ∈ Typing.unaryOps
  | binary op _ _ _ => op ∈ Typing.binaryOps
  | _ => True

/-- The operations in the expression are those of the language. -/
def Expr.OperatorsKnown (e : Expr) : Prop :=
  ∀ part ∈ e.parts, part.OperatorKnown

/-- The expressions and the declarations of a statement are made of known pieces. -/
structure Stmt.Shaped (s : Stmt) : Prop where
  exprs : ∀ e ∈ s.exprs, e.OperatorsKnown
  bindings : ∀ b ∈ s.bindings, b.2 ∈ Ty.values

/-- The expressions and the declarations of a block are made of known pieces. -/
structure Block.Shaped (b : Block) : Prop where
  exprs : ∀ e ∈ b.exprs, e.OperatorsKnown
  bindings : ∀ v ∈ b.bindings, v.2 ∈ Ty.values

/-- A function is made of known pieces. -/
structure Function.Shaped (f : Function) : Prop where
  result : f.result ∈ Ty.results
  params : ∀ p ∈ f.params, p.type ∈ Ty.values
  body : f.body.Shaped

/-- A block is `Shaped` if its statements are. -/
theorem Block.shaped_mk {ss : List Stmt} (h : ∀ s ∈ ss, s.Shaped) (pos : Pos) :
    (Block.mk ss pos).Shaped := by
  constructor
  · intro e he
    obtain ⟨s, hs, he⟩ := Stmt.mem_exprsAll.1 he
    exact (h s hs).exprs e he
  · intro b hb
    obtain ⟨s, hs, hb⟩ := Stmt.mem_bindingsAll.1 hb
    exact (h s hs).bindings b hb

namespace Parser

/-! ### Expressions -/

/-- An expression whose operations are known, as the parser passes it on. -/
def Known (m : Measured) : Prop := m.expr.OperatorsKnown

/-- An expression without operands has `OperatorsKnown` if its own operator is. -/
theorem operatorsKnown_leaf {e : Expr} (h : e.parts = [e]) (hknown : e.OperatorKnown) :
    e.OperatorsKnown := by
  intro part hpart
  rw [h, List.mem_singleton] at hpart
  rw [hpart]
  exact hknown

/-- A call has `OperatorsKnown` if its arguments have. -/
theorem operatorsKnown_call {f : Expr} {args : List Expr} {pos : Pos}
    (hargs : ∀ e ∈ args, e.OperatorsKnown) : (Expr.call f args pos).OperatorsKnown := by
  refine List.forall_mem_cons.2 ⟨trivial, fun part hpart => ?_⟩
  obtain ⟨e, he, hpart⟩ := Expr.mem_partsAll.1 hpart
  exact hargs e he part hpart

/-- A prefix sign is one of the `unaryOps`. -/
theorem mem_unaryOps {t : Token} (ht : t.Faithful) (htag : t.tag ∈ [.logicalNot, .minus]) :
    t.text ∈ Typing.unaryOps := by
  simp only [List.mem_cons, List.not_mem_nil, or_false] at htag
  rcases htag with htag | htag <;> rw [Token.Faithful, htag] at ht <;> rw [ht _ rfl] <;> decide

/-- The operators of all `levels` are among the `binaryOps`. -/
theorem exists_binaryOp : ∀ ops ∈ levels, ∀ tag ∈ ops, ∃ op, tag.operator? = some op ∧
    op ∈ Typing.binaryOps := by
  simp only [levels, List.forall_mem_cons]
  refine ⟨?_, ?_, ?_, ?_, ?_, ?_, by simp⟩ <;>
    exact ⟨⟨_, rfl, by decide⟩, by simp [Tag.operator?, Typing.binaryOps, Typing.arithmeticOps,
      Typing.equalityOps, Typing.orderOps, Typing.logicalOps]⟩

/-- Expressions built from `Faithful` tokens have known operators. -/
theorem exprRules_known : ExprRules (.all Token.Faithful) Known where
  literal _ _ _ := operatorsKnown_leaf rfl trivial
  ident _ _ := operatorsKnown_leaf rfl trivial
  unary hop htag hoperand _ :=
    List.forall_mem_cons.2 ⟨mem_unaryOps (Keeping.begins_all.1 hop) htag, hoperand⟩
  binary := by
    intro ops op left right hops hop htag hleft hright _
    obtain ⟨text, htext, hmem⟩ := exists_binaryOp ops hops op.tag htag
    have hknown : op.text ∈ Typing.binaryOps := Keeping.begins_all.1 hop text htext ▸ hmem
    exact List.forall_mem_cons.2 ⟨hknown, List.forall_mem_append.2 ⟨hleft, hright⟩⟩
  call _ hargs _ := operatorsKnown_call (List.forall_mem_map.2 hargs)
  assign _ _ hvalue _ := List.forall_mem_cons.2 ⟨trivial, hvalue⟩

/-! ### Statements and functions -/

/-- The `valueTypes`, words for the types of variables, name them. -/
theorem ofName_mem_values {text : String} (h : text ∈ valueTypes) : Ty.ofName text ∈ Ty.values := by
  simp only [valueTypes, List.mem_cons, List.not_mem_nil, or_false] at h
  rcases h with rfl | rfl | rfl <;> decide

/-- The `returnTypes`, words for the types of functions, name them. -/
theorem ofName_mem_results {text : String} (h : text ∈ returnTypes) :
    Ty.ofName text ∈ Ty.results := by
  simp only [returnTypes, List.mem_cons, List.not_mem_nil, or_false] at h
  rcases h with rfl | rfl | rfl | rfl <;> decide

theorem forall_mem_toList_map {m? : Option Measured} (h : ∀ m ∈ m?, Known m) :
    ∀ e ∈ (m?.map Measured.expr).toList, e.OperatorsKnown := by
  intro e he
  obtain ⟨m, hm, rfl⟩ := Option.map_eq_some_iff.1 (Option.mem_toList.1 he)
  exact h m hm

/-- Statements built from `Faithful` tokens are `Shaped`. -/
theorem stmtRules_shaped :
    StmtRules (.all Token.Faithful) Known (fun _ => Stmt.Shaped) (fun _ => Block.Shaped) where
  expr _ he := ⟨List.forall_mem_singleton.2 he, nofun⟩
  declare _ hkeyword _ hinit :=
    ⟨forall_mem_toList_map hinit,
      List.forall_mem_singleton.2 (ofName_mem_values (isKeyword_eq_true_iff.1 hkeyword).2)⟩
  ifThen _ hcond hbody := ⟨List.forall_mem_cons.2 ⟨hcond, hbody.exprs⟩, hbody.bindings⟩
  ifElse _ hcond hbody ha :=
    ⟨List.forall_mem_cons.2 ⟨hcond, List.forall_mem_append.2 ⟨hbody.exprs, ha.exprs⟩⟩,
      List.forall_mem_append.2 ⟨hbody.bindings, ha.bindings⟩⟩
  loop _ hcond hbody := ⟨List.forall_mem_cons.2 ⟨hcond, hbody.exprs⟩, hbody.bindings⟩
  ret _ hvalue := ⟨forall_mem_toList_map hvalue, nofun⟩
  block _ hss := Block.shaped_mk hss _

/-- Functions built from `Faithful` tokens are `Shaped`. -/
theorem functionRules_shaped : FunctionRules (.all Token.Faithful) Block.Shaped
    (fun p => p.type ∈ Ty.values) Function.Shaped where
  param _ hkeyword _ := ofName_mem_values (isKeyword_eq_true_iff.1 hkeyword).2
  function _ hkeyword _ hparams hbody :=
    ⟨ofName_mem_results (isKeyword_eq_true_iff.1 hkeyword).2, hparams, hbody⟩

end Parser

/-- The functions that `parse` finds in a source text are `Shaped`, made of known pieces, whatever
else it finds there. -/
theorem shaped_parse (source : String) :
    ∀ f ∈ (parse (scan source).1).1.functions, f.Shaped :=
  Parser.functions_parse Parser.exprRules_known Parser.stmtRules_shaped Parser.functionRules_shaped
    fun _ => faithful_of_mem_scan

end Tricode
