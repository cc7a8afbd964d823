import Tricode.Lowering
import Tricode.Proofs.Machine
import Tricode.Proofs.Parser.Shape
import Tricode.Proofs.Pass
import Tricode.Proofs.Token.Spacing

/-!
# How instructions are spelled

An instruction keeps texts: names, operands and an operator. In the code of a source text they are
lexemes (`spelled_lower_parse`): a name is an identifier, an operand is an identifier or a literal,
and an operator is one of the language. A temporary is an identifier like any other. This holds of
every instruction that is emitted, also where the program was faulty and lowering failed on the way.

The trees that the parser builds are spelled in this way, since tokens are lexemes
(`exprRules_spelled`), and lowering takes all its texts from the tree (`spells_lowerExpr`,
`spells_lower`).
-/

namespace Tricode

/-! ### Texts -/

/-- The text is an identifier. -/
def IsName (x : String) : Prop :=
  Lexeme .identifier x.toList

/-- The text is a literal. -/
def IsLiteral (text : String) : Prop :=
  Lexeme .intLiteral text.toList ∨ Lexeme .floatLiteral text.toList ∨ text ∈ Parser.truthWords

/-- The text is an identifier or a literal. -/
def IsOperand (text : String) : Prop :=
  IsName text ∨ IsLiteral text

/-- A `tempName` could be a name of the source. -/
theorem isName_tempName (n : Nat) : IsName (tempName n) := by
  have hdigits : ∀ d ∈ Nat.toDigits 10 n, Digit d := fun d hd =>
    isDigit_eq_true_iff.1 (Nat.isDigit_of_mem_toDigits (by decide) (by decide) hd)
  have hkeyword : ∀ word ∈ Segment.keywords, word.toList.all (fun c => !c.isDigit) = true := by
    decide
  rw [IsName, toList_tempName]
  refine .identifier (by decide) (fun d hd => .inr (hdigits d hd)) fun hword => ?_
  -- a keyword has no digits in it
  obtain ⟨d, hd⟩ := List.exists_mem_of_ne_nil _ (Nat.toDigits_ne_nil (n := n) (b := 10))
  have hall := hkeyword _ hword
  rw [String.toList_ofList] at hall
  have hnot := List.all_eq_true.1 hall d (List.mem_cons_of_mem _ hd)
  rw [isDigit_eq_true_iff.2 (hdigits d hd)] at hnot
  cases hnot

/-! ### Instructions -/

/-- The names of the instruction are identifiers, its operands identifiers or literals, and its
operator is one of the language. A line that is only text is none of the twelve instructions. -/
def Instr.Spelled : Instr → Prop
  | functionStart name => IsName name
  | functionEnd name => IsName name
  | copy dest value => IsName dest ∧ IsOperand value
  | declare name => IsName name
  | jumpUnless cond _ => IsOperand cond
  | jump _ => True
  | label _ => True
  | ret value => ∀ v ∈ value, IsOperand v
  | param value => IsOperand value
  | binary _ left op right => IsOperand left ∧ op ∈ Typing.binaryOps ∧ IsOperand right
  | unary _ op operand => op ∈ Typing.unaryOps ∧ IsOperand operand
  | call _ callee _ => IsName callee
  | verbatim _ => False

/-! ### Nodes -/

namespace Node

mutual

/-- The names in the tree are identifiers, its literals are literals, and its operators are those of
the language. -/
def Spelled : Node → Prop
  | absent => True
  | literal _ text _ => IsLiteral text
  | ident x _ => IsName x
  | unary op e _ => op ∈ Typing.unaryOps ∧ e.Spelled
  | binary op l r _ => op ∈ Typing.binaryOps ∧ l.Spelled ∧ r.Spelled
  | call f args _ => f.Spelled ∧ AllSpelled args
  | assign target e _ => target.Spelled ∧ e.Spelled
  | expr e _ => e.Spelled
  | declare _ x init _ => IsName x ∧ init.Spelled
  | block ss _ => AllSpelled ss
  | conditional c b a _ => c.Spelled ∧ b.Spelled ∧ a.Spelled
  | loop c b _ => c.Spelled ∧ b.Spelled
  | ret value _ => value.Spelled
  | param _ x _ => IsName x
  | params ps _ => AllSpelled ps
  | function _ x ps body _ => IsName x ∧ AllSpelled ps ∧ body.Spelled
  | program fs _ => AllSpelled fs

/-- The trees are spelled in this way. -/
def AllSpelled : List Node → Prop
  | [] => True
  | n :: ns => n.Spelled ∧ AllSpelled ns

end

theorem allSpelled_iff {ns : List Node} : AllSpelled ns ↔ ∀ n ∈ ns, n.Spelled := by
  induction ns with
  | nil => simp [AllSpelled]
  | cons n ns ih => rw [AllSpelled, ih, List.forall_mem_cons]

/-- The name of a `Node` that is `Spelled` is a name of the source. -/
theorem Spelled.isName {n : Node} (h : n.Spelled) {x : String} (hx : n.name = .ok x) :
    IsName x := by
  -- only four kinds of nodes have a name
  cases n with
  | ident y pos =>
    obtain rfl := Except.ok.inj hx
    exact h
  | declare type y init pos =>
    obtain rfl := Except.ok.inj hx
    exact h.1
  | param type y pos =>
    obtain rfl := Except.ok.inj hx
    exact h
  | function result y ps body pos =>
    obtain rfl := Except.ok.inj hx
    exact h.1
  | _ => cases hx

end Node

/-! ### Lowering -/

namespace Lowering

open Pass Node

/-- All instructions are spelled with lexemes, and what is given has `Q`. -/
abbrev Spells {α : Type} (Q : α → Prop) (m : Lowering α) : Prop :=
  m.Makes Instr.Spelled Q

theorem spells_emit (i : Instr) (h : i.Spelled) : (emit i).Spells fun _ => True :=
  (logs_write h).makes

theorem spells_newTemp : newTemp.Spells fun _ => True :=
  (logs_of_silent fun _ => rfl).makes

theorem spells_newLabel : newLabel.Spells fun _ => True :=
  (logs_of_silent fun _ => rfl).makes

theorem spells_emitParams : ∀ operands : List String, (∀ v ∈ operands, IsOperand v) →
    (emitParams operands).Spells fun _ => True
  | [], _ => makes_pure trivial
  | v :: vs, h => by
    obtain ⟨hv, hvs⟩ := List.forall_mem_cons.1 h
    exact (spells_emit (.param v) hv).bind fun _ _ => spells_emitParams vs hvs

theorem spells_name {n : Node} (h : n.Spelled) :
    Spells IsName (Pass.ofExcept n.name : Lowering String) :=
  makes_ofExcept fun _ => h.isName

/-- An instruction that sets a temporary, with the `tempName` that holds the value. -/
theorem spells_emit_temp {i : Instr} {dest : Nat} (h : i.Spelled) :
    Spells IsOperand (do emit i; pure (tempName dest)) :=
  (spells_emit i h).bind fun _ _ => makes_pure (.inl (isName_tempName dest))

mutual

/-- Lowering a `Spelled` expression emits spelled instructions, and gives an operand. -/
theorem spells_lowerExpr : ∀ n : Node, n.Spelled → (lowerExpr n).Spells IsOperand
  | .literal _ _ _, h => makes_pure (.inr h)
  | .ident _ _, h => makes_pure (.inl h)
  | .unary _ e _, ⟨hop, he⟩ =>
    (spells_lowerExpr e he).bind fun _ hoperand => spells_newTemp.bind fun _ _ =>
      spells_emit_temp ⟨hop, hoperand⟩
  | .binary _ l r _, ⟨hop, hl, hr⟩ =>
    (spells_lowerExpr l hl).bind fun _ hleft => (spells_lowerExpr r hr).bind fun _ hright =>
      spells_newTemp.bind fun _ _ => spells_emit_temp ⟨hleft, hop, hright⟩
  | .call _ args _, ⟨hf, hargs⟩ =>
    (spells_lowerArgs args hargs).bind fun operands hoperands =>
      (spells_emitParams operands hoperands).bind fun _ _ => spells_newTemp.bind fun _ _ =>
        (spells_name hf).bind fun _ hname => spells_emit_temp hname
  | .assign _ e _, ⟨htarget, he⟩ =>
    (spells_lowerExpr e he).bind fun value hvalue => (spells_name htarget).bind fun name hname =>
      (spells_emit (.copy name value) ⟨hname, hvalue⟩).bind fun _ _ => makes_pure (.inl hname)
  -- no other node is an expression
  | .absent, _ | .expr .., _ | .declare .., _ | .block .., _ | .conditional .., _ | .loop .., _
  | .ret .., _ | .param .., _ | .params .., _ | .function .., _ | .program .., _ => makes_fail _

theorem spells_lowerArgs : ∀ ns : List Node, AllSpelled ns →
    (lowerArgs ns).Spells fun operands => ∀ v ∈ operands, IsOperand v
  | [], _ => makes_pure (List.forall_mem_nil _)
  | n :: ns, ⟨hn, hns⟩ =>
    (spells_lowerExpr n hn).bind fun _ hoperand => (spells_lowerArgs ns hns).bind fun _ hoperands =>
      makes_pure (List.forall_mem_cons.2 ⟨hoperand, hoperands⟩)

end

mutual

/-- Lowering a `Spelled` `Node` emits spelled instructions, up to where it fails. -/
theorem spells_lower : ∀ n : Node, n.Spelled → (lower n).Spells fun _ => True
  | .program fs _, h => spells_lowerAll fs h
  | .function _ name _ body _, ⟨hname, _, hbody⟩ =>
    (spells_emit (.functionStart name) hname).bind fun _ _ =>
      (spells_lower body hbody).bind fun _ _ => spells_emit (.functionEnd name) hname
  | .block ss _, h => spells_lowerAll ss h
  | .declare _ name init _, ⟨hname, hinit⟩ => by
    rw [lower]
    split
    · exact spells_emit (.declare name) hname
    · exact (spells_lowerExpr init hinit).bind fun value hvalue =>
        spells_emit (.copy name value) ⟨hname, hvalue⟩
  | .conditional c b a _, ⟨hc, hb, ha⟩ => by
    rw [lower]
    refine (spells_lowerExpr c hc).bind fun cond hcond => ?_
    split
    · exact spells_newLabel.bind fun done _ =>
        (spells_emit (.jumpUnless cond done) hcond).bind fun _ _ =>
          (spells_lower b hb).bind fun _ _ => spells_emit (.label done) trivial
    · exact spells_newLabel.bind fun otherwise _ => spells_newLabel.bind fun done _ =>
        (spells_emit (.jumpUnless cond otherwise) hcond).bind fun _ _ =>
          (spells_lower b hb).bind fun _ _ => (spells_emit (.jump done) trivial).bind fun _ _ =>
            (spells_emit (.label otherwise) trivial).bind fun _ _ =>
              (spells_lower a ha).bind fun _ _ => spells_emit (.label done) trivial
  | .loop c b _, ⟨hc, hb⟩ =>
    spells_newLabel.bind fun again _ => spells_newLabel.bind fun done _ =>
      (spells_emit (.label again) trivial).bind fun _ _ =>
        (spells_lowerExpr c hc).bind fun cond hcond =>
          (spells_emit (.jumpUnless cond done) hcond).bind fun _ _ =>
            (spells_lower b hb).bind fun _ _ =>
              (spells_emit (.jump again) trivial).bind fun _ _ => spells_emit (.label done) trivial
  | .ret value _, h => by
    rw [lower]
    split
    · exact spells_emit (.ret none) (by simp [Instr.Spelled])
    · exact (spells_lowerExpr value h).bind fun v hv =>
        spells_emit (.ret (some v)) (by simpa [Instr.Spelled])
  | .expr e _, h => (spells_lowerExpr e h).logs.discard.makes
  | .absent, _ | .literal .., _ | .ident .., _ | .unary .., _ | .binary .., _ | .call .., _
  | .assign .., _ | .param .., _ | .params .., _ => makes_fail _

theorem spells_lowerAll : ∀ ns : List Node, AllSpelled ns → (lowerAll ns).Spells fun _ => True
  | [], _ => makes_pure trivial
  | n :: ns, ⟨hn, hns⟩ => (spells_lower n hn).bind fun _ _ => spells_lowerAll ns hns

end

end Lowering

/-! ### Trees of the parser -/

/-- The token is a lexeme, unless it is the end token, and if it is an operator, it is written like
it. -/
structure Token.Lexical (t : Token) : Prop where
  lexeme : t.tag ≠ .eof → Lexeme t.tag t.text.toList
  faithful : t.Faithful

/-- The tokens of a `scan` are `Lexical`. -/
theorem lexical_of_mem_scan {source : String} {t : Token} (h : t ∈ (scan source).1) :
    t.Lexical := by
  refine ⟨fun htag => ?_, faithful_of_mem_scan h⟩
  rw [scan_eq_scanned] at h
  rcases List.mem_append.1 h with h | h
  · exact lexeme_of_mem_scanned h
  · rw [List.mem_singleton.1 h] at htag
    exact absurd rfl htag

namespace Token.Lexical

variable {t : Token} (h : t.Lexical)

include h

theorem isName (htag : t.tag = .identifier) : IsName t.text := by
  have hlexeme := h.lexeme (by rw [htag]; decide)
  rw [htag] at hlexeme
  exact hlexeme

theorem isLiteral {kind : LiteralKind} (hkind : t.Denotes kind) : IsLiteral t.text := by
  cases kind with
  | int =>
    have hlexeme := h.lexeme (by rw [hkind]; decide)
    rw [hkind] at hlexeme
    exact .inl hlexeme
  | float =>
    have hlexeme := h.lexeme (by rw [hkind]; decide)
    rw [hkind] at hlexeme
    exact .inr (.inl hlexeme)
  | bool => exact .inr (.inr (Parser.isKeyword_eq_true_iff.1 hkind).2)

end Token.Lexical

namespace Parser

open Node

/-- Expressions built from `Lexical` tokens are `Spelled`. -/
theorem exprRules_spelled : ExprRules (.all Token.Lexical) fun m => m.expr.toNode.Spelled where
  literal _ ht hkind := (Keeping.begins_all.1 ht).isLiteral hkind
  ident ht htag := (Keeping.begins_all.1 ht).isName htag
  unary hop htag hoperand _ := ⟨mem_unaryOps (Keeping.begins_all.1 hop).faithful htag, hoperand⟩
  binary := by
    intro ops op left right hops hop htag hleft hright _
    obtain ⟨text, htext, hmem⟩ := exists_binaryOp ops hops op.tag htag
    exact ⟨(Keeping.begins_all.1 hop).faithful text htext ▸ hmem, hleft, hright⟩
  call hcallee hargs _ := by
    refine ⟨hcallee, ?_⟩
    rw [Expr.toNodes_eq_map, allSpelled_iff, List.map_map, List.forall_mem_map]
    exact hargs
  assign := by
    intro target value x pos htarget hname hvalue _
    -- the target is the name
    obtain ⟨e, depth⟩ := target
    cases e with
    | ident y q =>
      obtain ⟨rfl, -⟩ := Prod.mk.inj (Option.some.inj hname)
      exact ⟨htarget, hvalue⟩
    | _ => cases hname

theorem spelled_ofExpr? {m? : Option Measured} (h : ∀ m ∈ m?, m.expr.toNode.Spelled) :
    (ofExpr? (m?.map Measured.expr)).Spelled := by
  cases m? with
  | none => trivial
  | some m => exact h m rfl

theorem isName_of_beginsPair {t n : Token} (h : (Keeping.all Token.Lexical).BeginsPair t n)
    (htag : n.tag = .identifier) : IsName n.text := by
  obtain ⟨ts, h⟩ := h
  exact (h n (List.mem_cons_of_mem _ List.mem_cons_self)).isName htag

/-- Statements built from `Lexical` tokens are `Spelled`. -/
theorem stmtRules_spelled : StmtRules (.all Token.Lexical) (fun m => m.expr.toNode.Spelled)
    (fun _ s => s.toNode.Spelled) fun _ b => b.toNode.Spelled where
  expr _ he := he
  declare hpair _ htag hinit := ⟨isName_of_beginsPair hpair htag, spelled_ofExpr? hinit⟩
  ifThen _ hcond hbody := ⟨hcond, hbody, trivial⟩
  ifElse _ hcond hbody ha := ⟨hcond, hbody, ha⟩
  loop _ hcond hbody := ⟨hcond, hbody⟩
  ret _ hvalue := spelled_ofExpr? hvalue
  block _ hss := by
    rw [Block.toNode, Spelled, Stmt.toNodes_eq_map, allSpelled_iff, List.forall_mem_map]
    exact hss

/-- Functions built from `Lexical` tokens are `Spelled`. -/
theorem functionRules_spelled : FunctionRules (.all Token.Lexical) (fun b => b.toNode.Spelled)
    (fun p => p.toNode.Spelled) fun f => f.toNode.Spelled where
  param hpair _ htag := isName_of_beginsPair hpair htag
  function hpair _ htag hparams hbody :=
    ⟨isName_of_beginsPair hpair htag, allSpelled_iff.2 (List.forall_mem_map.2 hparams), hbody⟩

end Parser

/-- The program of a source text is `Spelled`. -/
theorem spelled_parse (source : String) : (parse (scan source).1).1.toNode.Spelled := by
  rw [Program.toNode, Node.Spelled, Node.allSpelled_iff, List.forall_mem_map]
  exact Parser.functions_parse Parser.exprRules_spelled Parser.stmtRules_spelled
    Parser.functionRules_spelled fun _ => lexical_of_mem_scan

/-- Everything that is emitted for a source text is `Spelled` with lexemes, up to where lowering
ends or fails. -/
theorem spelled_lower_parse (source : String) :
    ∀ i ∈ (Lowering.lower (parse (scan source).1).1.toNode .zero).log, i.Spelled :=
  (Lowering.spells_lower _ (spelled_parse source)).logs .zero

end Tricode
