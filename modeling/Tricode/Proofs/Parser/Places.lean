import Tricode.Node
import Tricode.Proofs.Parser.Trees

/-!
# Places in trees

Every node of a tree stands at a token of the list it was parsed from (`placed_parse`): a name or a
literal at the token that spells it, and a declaration at the keyword of its type, which has the
declared name next to it. What is reported about the tokens stands at one of them, too
(`marked_of_mem_parse`).

The parser never looks beyond the end token. So, as long as that is there, what is left to be read
is a suffix of the list with a next token (`Keeping.suffixes`), and places in the suffix are places
in the list.
-/

namespace Tricode

/-! ### Places in a list of tokens -/

namespace Pos

/-- A token stands at the position. -/
def Marked (ts : List Token) (pos : Pos) : Prop :=
  ∃ t ∈ ts, t.pos = pos

/-- A token with the given text stands at the position. -/
def Written (ts : List Token) (text : String) (pos : Pos) : Prop :=
  ∃ t ∈ ts, t.text = text ∧ t.pos = pos

/-- The name `x` stands at the position. -/
def Named (ts : List Token) (x : String) (pos : Pos) : Prop :=
  ∃ t ∈ ts, t.tag = .identifier ∧ t.text = x ∧ t.pos = pos

/-- The keyword of a type stands at the position, and the name `x` is the next token. -/
def Declared (ts : List Token) (type : Ty) (x : String) (pos : Pos) : Prop :=
  ∃ t n, [t, n] <:+: ts ∧ t.isKeyword Parser.returnTypes = true ∧ t.text = type.name ∧ t.pos = pos ∧
    n.tag = .identifier ∧ n.text = x

variable {ts : List Token} {x : String} {type : Ty} {pos : Pos}

/-- Where a text is written, there is a token. -/
theorem Written.marked (h : pos.Written ts x) : pos.Marked ts := by
  obtain ⟨t, ht, -, hpos⟩ := h
  exact ⟨t, ht, hpos⟩

/-- Where a name stands, it is written. -/
theorem Named.written (h : pos.Named ts x) : pos.Written ts x := by
  obtain ⟨t, ht, -, htext, hpos⟩ := h
  exact ⟨t, ht, htext, hpos⟩

theorem Named.marked (h : pos.Named ts x) : pos.Marked ts :=
  h.written.marked

/-- Where a name is `Declared`, there is a token. -/
theorem Declared.marked (h : pos.Declared ts type x) : pos.Marked ts := by
  obtain ⟨t, n, hinfix, -, -, hpos, -⟩ := h
  exact ⟨t, hinfix.subset List.mem_cons_self, hpos⟩

end Pos

/-! ### Nodes -/

namespace Node

mutual

/-- The node and all nodes below it stand at tokens of the list: names and literals where they are
written, declarations at their types. -/
def Placed (ts : List Token) : Node → Prop
  | absent => True
  | literal _ text pos => pos.Written ts text
  | ident x pos => pos.Named ts x
  | unary _ e pos => pos.Marked ts ∧ e.Placed ts
  | binary _ l r pos => pos.Marked ts ∧ l.Placed ts ∧ r.Placed ts
  | call f args pos => pos.Marked ts ∧ f.Placed ts ∧ AllPlaced ts args
  | assign target e pos => pos.Marked ts ∧ target.Placed ts ∧ e.Placed ts
  | expr e pos => pos.Marked ts ∧ e.Placed ts
  | declare type x init pos => pos.Declared ts type x ∧ init.Placed ts
  | block ss pos => pos.Marked ts ∧ AllPlaced ts ss
  | conditional c b a pos => pos.Marked ts ∧ c.Placed ts ∧ b.Placed ts ∧ a.Placed ts
  | loop c b pos => pos.Marked ts ∧ c.Placed ts ∧ b.Placed ts
  | ret value pos => pos.Marked ts ∧ value.Placed ts
  | param type x pos => pos.Declared ts type x
  | params ps pos => pos.Marked ts ∧ AllPlaced ts ps
  | function result x ps body pos => pos.Declared ts result x ∧ AllPlaced ts ps ∧ body.Placed ts
  | program fs pos => pos.Marked ts ∧ AllPlaced ts fs

/-- The nodes and all nodes below them stand at tokens of the list. -/
def AllPlaced (ts : List Token) : List Node → Prop
  | [] => True
  | n :: ns => n.Placed ts ∧ AllPlaced ts ns

end

variable {ts : List Token}

theorem allPlaced_iff {ns : List Node} : AllPlaced ts ns ↔ ∀ n ∈ ns, n.Placed ts := by
  induction ns with
  | nil => simp [AllPlaced]
  | cons n ns ih => rw [AllPlaced, ih, List.forall_mem_cons]

theorem allPlaced_toNodes_iff {es : List Expr} :
    AllPlaced ts (Expr.toNodes es) ↔ ∀ e ∈ es, e.toNode.Placed ts := by
  rw [Expr.toNodes_eq_map, allPlaced_iff, List.forall_mem_map]

theorem placed_ofExpr?_iff {e? : Option Expr} :
    (ofExpr? e?).Placed ts ↔ ∀ e ∈ e?, e.toNode.Placed ts := by
  cases e? with
  | none => simp [ofExpr?, Placed]
  | some e => simp [ofExpr?]

end Node

/-- An expression that is `Placed` stands at a token. -/
theorem Expr.marked_of_placed {ts : List Token} {e : Expr} (h : e.toNode.Placed ts) :
    e.pos.Marked ts := by
  cases e with
  | literal kind text pos => exact Pos.Written.marked h
  | ident x pos => exact Pos.Named.marked h
  | unary op e pos => exact h.1
  | binary op l r pos => exact h.1
  | call f args pos => exact h.1
  | assign x e pos => exact h.1

namespace Parser

/-! ### What is left of a list -/

/-- What is left is a suffix of the list in which the end is still to come, and findings stand at
tokens of the list. -/
def Keeping.suffixes (all : List Token) : Keeping where
  tokens ts := ts <:+ all ∧ ∃ t ∈ ts, t.tag = .eof
  findings found := found.pos.Marked all
  tail := by
    rintro ts ⟨hsuffix, stop, hstop, htag⟩ hnext
    refine ⟨(List.tail_suffix ts).trans hsuffix, stop, ?_, htag⟩
    cases ts with
    | nil => cases hstop
    | cons t ts =>
      rcases List.mem_cons.1 hstop with rfl | hstop
      · exact absurd htag hnext
      · exact hstop
  entry := by
    rintro ts cause ⟨hsuffix, stop, hstop, -⟩
    cases ts with
    | nil => cases hstop
    | cons t ts => exact ⟨t, hsuffix.subset List.mem_cons_self, rfl⟩

section

variable {all ts : List Token} {t n : Token}

/-- A token at the front of what is left is one of all. -/
theorem mem_of_begins (h : (Keeping.suffixes all).Begins t) : t ∈ all := by
  obtain ⟨ts, hsuffix, -⟩ := h
  exact hsuffix.subset List.mem_cons_self

/-- The position of a token at the front of what is left is `Marked`. -/
theorem marked_of_begins (h : (Keeping.suffixes all).Begins t) : t.pos.Marked all :=
  ⟨t, mem_of_begins h, rfl⟩

theorem marked_next (h : (Keeping.suffixes all).tokens ts) : (next ts).pos.Marked all :=
  (Keeping.suffixes all).entry .invalidTarget h

/-- A type with a name behind it declares the name. -/
theorem declared_of_beginsPair (h : (Keeping.suffixes all).BeginsPair t n)
    (hkeyword : t.isKeyword returnTypes = true) (htag : n.tag = .identifier) :
    t.pos.Declared all (.ofName t.text) n.text := by
  obtain ⟨ts, hsuffix, -⟩ := h
  have hinfix : [t, n] <:+: all := (List.prefix_append [t, n] ts).isInfix.trans hsuffix.isInfix
  exact ⟨t, n, hinfix, hkeyword, (Ty.name_ofName t.text).symm, rfl, htag, rfl⟩

/-- Functions may have the types of variables. -/
theorem isKeyword_returnTypes (h : t.isKeyword valueTypes = true) :
    t.isKeyword returnTypes = true := by
  obtain ⟨htag, htext⟩ := isKeyword_eq_true_iff.1 h
  have hsubset : valueTypes ⊆ returnTypes := by decide
  exact isKeyword_eq_true_iff.2 ⟨htag, hsubset htext⟩

end

/-! ### The rules keep places -/

section

variable {all : List Token}

/-- Expressions are `Placed` at the tokens that they are built from. -/
theorem exprRules_placed : ExprRules (.suffixes all) fun m => m.expr.toNode.Placed all where
  literal _ ht _ := ⟨_, mem_of_begins ht, rfl, rfl⟩
  ident ht htag := ⟨_, mem_of_begins ht, htag, rfl, rfl⟩
  unary hop _ hoperand _ := ⟨marked_of_begins hop, hoperand⟩
  binary _ hop _ hleft hright _ := ⟨marked_of_begins hop, hleft, hright⟩
  call hcallee hargs _ :=
    ⟨Expr.marked_of_placed hcallee, hcallee, Node.allPlaced_toNodes_iff.2
      (List.forall_mem_map.2 hargs)⟩
  assign := by
    intro target value x pos htarget hname hvalue _
    -- the target is the name, and so the name is written there
    obtain ⟨e, depth⟩ := target
    cases e with
    | ident y q =>
      obtain ⟨rfl, rfl⟩ := Prod.mk.inj (Option.some.inj hname)
      exact ⟨Pos.Named.marked htarget, htarget, hvalue⟩
    | _ => cases hname

/-- An expression that need not be there is `Placed` if it is there. -/
theorem placed_ofExpr?_map {m? : Option Measured} (h : ∀ m ∈ m?, m.expr.toNode.Placed all) :
    (Node.ofExpr? (m?.map Measured.expr)).Placed all := by
  rw [Node.placed_ofExpr?_iff]
  intro e he
  obtain ⟨m, hm, rfl⟩ := Option.map_eq_some_iff.1 he
  exact h m hm

/-- Statements are `Placed` at the tokens that they are built from. -/
theorem stmtRules_placed : StmtRules (.suffixes all) (fun m => m.expr.toNode.Placed all)
    (fun _ s => s.toNode.Placed all) (fun _ b => b.toNode.Placed all) where
  expr hts he := ⟨marked_next hts, he⟩
  declare hpair hkeyword htag hinit :=
    ⟨declared_of_beginsPair hpair (isKeyword_returnTypes hkeyword) htag, placed_ofExpr?_map hinit⟩
  ifThen ht hcond hbody := ⟨marked_of_begins ht, hcond, hbody, trivial⟩
  ifElse ht hcond hbody ha := ⟨marked_of_begins ht, hcond, hbody, ha⟩
  loop ht hcond hbody := ⟨marked_of_begins ht, hcond, hbody⟩
  ret ht hvalue := ⟨marked_of_begins ht, placed_ofExpr?_map hvalue⟩
  block ht hss := by
    refine ⟨marked_of_begins ht, ?_⟩
    rw [Stmt.toNodes_eq_map, Node.allPlaced_iff, List.forall_mem_map]
    exact hss

/-- Functions are `Placed` at the tokens that they are built from. -/
theorem functionRules_placed : FunctionRules (.suffixes all) (fun b => b.toNode.Placed all)
    (fun p => p.toNode.Placed all) (fun f => f.toNode.Placed all) where
  param hpair hkeyword htag := declared_of_beginsPair hpair (isKeyword_returnTypes hkeyword) htag
  function hpair hkeyword htag hparams hbody :=
    ⟨declared_of_beginsPair hpair hkeyword htag,
      Node.allPlaced_iff.2 (List.forall_mem_map.2 hparams), hbody⟩

end

end Parser

/-! ### Programs -/

/-- The program that `parse` finds stands at the first token. -/
theorem pos_parse (ts : List Token) : (parse ts).1.pos = (Parser.next ts).pos := by
  have hprogram : Parser.program Parser.maxNesting ts =
      (Parser.many (Parser.programItem Parser.maxNesting) >>= fun found =>
        pure ⟨found.filterMap id, (Parser.next ts).pos⟩) ts := rfl
  -- a program cannot fail, and keeps the position at which it began
  generalize hfound : Parser.many (Parser.programItem Parser.maxNesting) ts = r
  obtain ⟨value, log, rest⟩ := r
  cases value with
  | ok found =>
    rw [Pass.bind_eq hfound rfl] at hprogram
    rw [parse, hprogram]
    rfl
  | error e => cases e

section

variable {ts : List Token} (hend : ∃ t ∈ ts, t.tag = .eof)

include hend

/-- The program that the parser finds is `Placed` on its tokens. -/
theorem placed_parse : (parse ts).1.toNode.Placed ts := by
  have hfunctions := Parser.functions_parse Parser.exprRules_placed Parser.stmtRules_placed
    Parser.functionRules_placed (K := .suffixes ts) ⟨List.suffix_rfl, hend⟩
  refine ⟨?_, Node.allPlaced_iff.2 (List.forall_mem_map.2 hfunctions)⟩
  rw [pos_parse]
  exact Parser.marked_next ⟨List.suffix_rfl, hend⟩

/-- The findings of `parse` stand at tokens. -/
theorem marked_of_mem_parse : ∀ found ∈ (parse ts).2, found.pos.Marked ts :=
  Parser.findings_parse Parser.exprRules_placed Parser.stmtRules_placed
    Parser.functionRules_placed (K := .suffixes ts) ⟨List.suffix_rfl, hend⟩

end

end Tricode
