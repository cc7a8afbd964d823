import Tricode.Proofs.Compilation
import Tricode.Proofs.Parser.Height
import Tricode.Proofs.Parser.Places
import Tricode.Proofs.Typing.Scopes

/-!
# Places of what a compilation shows

Everything that a compilation shows about a text points into the text (`placed_compile`): the nodes
of the tree, the symbols, and what was found wrong stand at tokens. The tokens are the right ones,
too. A name or a literal stands where it is written; a symbol, and the report that its name is
taken, stand at the keyword of a type with the name next to it; a report that a name is not known
stands at the name.

The nodes of the tree have their places from the parser (`placed_parse`). The checker makes up no
places of its own: its symbols have the places of declarations, and its findings those of the pieces
of the program that are to blame (`blames_of_mem_findings`).
-/

namespace Tricode

/-! ### Outlines -/

/-- The kinds of nodes that a single token spells. -/
def Kind.spelled : List Kind := [.identifier, .integerLiteral, .floatLiteral, .booleanLiteral]

namespace Outline

mutual

/-- The nodes of an outline, from the root down and from left to right. -/
def nodes : Outline → List Outline
  | absent => []
  | node kind value type children pos => node kind value type children pos :: nodesAll children

/-- The nodes of outlines. -/
def nodesAll : List Outline → List Outline
  | [] => []
  | o :: os => o.nodes ++ nodesAll os

end

/-- One of `nodesAll` of a row of outlines is one of the `nodes` of one of them. -/
theorem mem_nodesAll {m : Outline} {os : List Outline} :
    m ∈ nodesAll os ↔ ∃ o ∈ os, m ∈ o.nodes := by
  induction os with
  | nil => simp [nodesAll]
  | cons o os ih => simp [nodesAll, ih]

/-- The node stands at a token, and at the one that spells it if it is a name or a literal. -/
def Placed (ts : List Token) : Outline → Prop
  | absent => True
  | node kind value _ _ pos => ∃ t ∈ ts, t.pos = pos ∧ (kind ∈ Kind.spelled → value = some t.text)

/-- All nodes of the outline have their places. -/
def AllPlaced (ts : List Token) (o : Outline) : Prop :=
  ∀ m ∈ o.nodes, m.Placed ts

variable {ts : List Token} {kind : Kind} {value : Option String} {type : Option Ty}
  {children : List Outline} {pos : Pos}

theorem allPlaced_absent : absent.AllPlaced ts :=
  fun m hm => by cases hm

/-- A node that is not `spelled` out has only to stand at a token. -/
theorem allPlaced_node (hpos : pos.Marked ts) (hkind : kind ∉ Kind.spelled)
    (h : ∀ o ∈ children, o.AllPlaced ts) : (node kind value type children pos).AllPlaced ts := by
  refine List.forall_mem_cons.2 ⟨?_, fun m hm => ?_⟩
  · obtain ⟨t, ht, hpos⟩ := hpos
    exact ⟨t, ht, hpos, fun hmem => absurd hmem hkind⟩
  · obtain ⟨o, ho, hm⟩ := mem_nodesAll.1 hm
    exact h o ho m hm

/-- A node that is spelled out is `AllPlaced` if it stands at the token that spells it. -/
theorem allPlaced_spelled {text : String} (h : pos.Written ts text) :
    (node kind (some text) type [] pos).AllPlaced ts := by
  obtain ⟨t, ht, htext, hpos⟩ := h
  exact List.forall_mem_singleton.2 ⟨t, ht, hpos, fun _ => congrArg some htext.symm⟩

end Outline

/-- Whatever the computation gives has `P`. -/
def Gives {α : Type} (P : α → Prop) (x : Except Fault α) : Prop :=
  ∀ a, x = .ok a → P a

section

variable {α β : Type} {P : α → Prop} {Q : β → Prop}

theorem gives_pure {a : α} (h : P a) : Gives P (pure a) := by
  intro b hb
  obtain rfl := Except.ok.inj hb
  exact h

/-- What `Gives` one thing after the other. -/
theorem Gives.bind {x : Except Fault α} {f : α → Except Fault β} (hx : Gives P x)
    (hf : ∀ a, P a → Gives Q (f a)) : Gives Q (x >>= f) := by
  intro b hb
  cases x with
  | error e => cases hb
  | ok a => exact hf a (hx a rfl) b hb

end

namespace Node

open Outline

variable {ts : List Token}

mutual

/-- The `Outline` of a `Node` has the places of the node. -/
theorem gives_outline : ∀ n : Node, n.Placed ts → Gives (Outline.AllPlaced ts) n.outline
  | absent, _ => gives_pure allPlaced_absent
  | literal .., h => gives_pure (allPlaced_spelled h)
  | ident .., h => gives_pure (allPlaced_spelled (Pos.Named.written h))
  | unary _ e _, h => by
    obtain ⟨hpos, he⟩ := h
    refine (gives_outline e he).bind fun o ho => gives_pure ?_
    exact allPlaced_node hpos (by decide) (List.forall_mem_singleton.2 ho)
  | binary _ l r _, h => by
    obtain ⟨hpos, hl, hr⟩ := h
    refine (gives_outline l hl).bind fun o ho =>
      (gives_outline r hr).bind fun o' ho' => gives_pure ?_
    exact allPlaced_node hpos (by decide) (forall_mem_pair ho ho')
  | call f args _, h => by
    obtain ⟨hpos, hf, hargs⟩ := h
    refine (gives_outline f hf).bind fun o ho => (gives_outlines args hargs).bind fun os hos =>
      gives_pure ?_
    exact allPlaced_node hpos (by decide) (List.forall_mem_cons.2 ⟨ho, hos⟩)
  | assign target e _, h => by
    obtain ⟨hpos, htarget, he⟩ := h
    have hname : Gives (fun _ => True) target.name := fun _ _ => trivial
    refine hname.bind fun _ _ => (gives_outline target htarget).bind fun o ho =>
      (gives_outline e he).bind fun o' ho' => gives_pure ?_
    exact allPlaced_node hpos (by decide) (forall_mem_pair ho ho')
  | expr e _, h => by
    obtain ⟨hpos, he⟩ := h
    refine (gives_outline e he).bind fun o ho => gives_pure ?_
    exact allPlaced_node hpos (by decide) (List.forall_mem_singleton.2 ho)
  | declare _ _ init _, h => by
    obtain ⟨hpos, hinit⟩ := h
    refine (gives_outline init hinit).bind fun o ho => gives_pure ?_
    apply allPlaced_node hpos.marked (by decide)
    -- an initial value that is not there is no child
    split
    · exact List.forall_mem_nil _
    · exact List.forall_mem_singleton.2 ho
  | block ss _, h => by
    obtain ⟨hpos, hss⟩ := h
    exact (gives_outlines ss hss).bind fun os hos =>
      gives_pure (allPlaced_node hpos (by decide) hos)
  | conditional c b a _, h => by
    obtain ⟨hpos, hc, hb, ha⟩ := h
    refine (gives_outline c hc).bind fun o ho => (gives_outline b hb).bind fun o' ho' =>
      (gives_outline a ha).bind fun o'' ho'' => gives_pure ?_
    apply allPlaced_node hpos (by decide)
    split
    · exact forall_mem_pair ho ho'
    · exact List.forall_mem_cons.2 ⟨ho, forall_mem_pair ho' ho''⟩
  | loop c b _, h => by
    obtain ⟨hpos, hc, hb⟩ := h
    refine (gives_outline c hc).bind fun o ho =>
      (gives_outline b hb).bind fun o' ho' => gives_pure ?_
    exact allPlaced_node hpos (by decide) (forall_mem_pair ho ho')
  | ret value _, h => by
    obtain ⟨hpos, hvalue⟩ := h
    refine (gives_outline value hvalue).bind fun o ho => gives_pure ?_
    apply allPlaced_node hpos (by decide)
    split
    · exact List.forall_mem_nil _
    · exact List.forall_mem_singleton.2 ho
  | param .., h =>
    gives_pure (allPlaced_node (Pos.Declared.marked h) (by decide) (List.forall_mem_nil _))
  | params ps _, h => by
    obtain ⟨hpos, hps⟩ := h
    exact (gives_outlines ps hps).bind fun os hos =>
      gives_pure (allPlaced_node hpos (by decide) hos)
  | function _ _ ps body _, h => by
    obtain ⟨hpos, hps, hbody⟩ := h
    refine (gives_outlines ps hps).bind fun os hos => (gives_outline body hbody).bind fun o ho =>
      gives_pure ?_
    -- the parameters are a node of their own, at the place of the function
    exact allPlaced_node hpos.marked (by decide)
      (forall_mem_pair (allPlaced_node hpos.marked (by decide) hos) ho)
  | program fs _, h => by
    obtain ⟨hpos, hfs⟩ := h
    exact (gives_outlines fs hfs).bind fun os hos =>
      gives_pure (allPlaced_node hpos (by decide) hos)

/-- The `outlines` of nodes have the places of the nodes. -/
theorem gives_outlines : ∀ ns : List Node, AllPlaced ts ns →
    Gives (fun os => ∀ o ∈ os, Outline.AllPlaced ts o) (outlines ns)
  | [], _ => gives_pure (List.forall_mem_nil _)
  | n :: ns, h => by
    obtain ⟨hn, hns⟩ := h
    refine (gives_outline n hn).bind fun o ho =>
      (gives_outlines ns hns).bind fun os hos => gives_pure ?_
    exact List.forall_mem_cons.2 ⟨ho, hos⟩

end

end Node

/-! ### Symbols -/

/-- The symbol stands at the keyword of its type, with its name as the next token. The type of a
function is its result, and its parameters stand at their types, too. -/
structure Symbol.Placed (ts : List Token) (s : Symbol) : Prop where
  declared : s.pos.Declared ts s.type s.name
  signature : ∀ signature ∈ s.signature?, signature.result = s.type ∧
    ∀ p ∈ signature.params, p.pos.Declared ts p.type p.name

section

variable {ts : List Token}

/-- The `symbol` of a parameter stands where the parameter is declared. -/
theorem Param.placed_symbol {p : Param} (h : p.toNode.Placed ts) : p.symbol.Placed ts :=
  ⟨h, fun _ hmem => by cases hmem⟩

mutual

/-- The `symbols` that a statement declares have the places of their declarations. -/
theorem Stmt.placed_symbols : ∀ s : Stmt, s.toNode.Placed ts →
    ∀ symbol ∈ s.symbols, symbol.Placed ts
  | .expr .., _, _, hmem => absurd hmem List.not_mem_nil
  | .declare t x init pos, h, _, hmem => by
    obtain rfl := List.mem_singleton.1 hmem
    exact ⟨h.1, fun _ hmem => by cases hmem⟩
  | .ifThen _ b _, h, symbol, hmem => b.placed_symbols h.2.2.1 symbol hmem
  | .ifElse _ b a _, h, symbol, hmem => by
    rcases List.mem_append.1 hmem with hmem | hmem
    · exact b.placed_symbols h.2.2.1 symbol hmem
    · exact a.placed_symbols h.2.2.2 symbol hmem
  | .loop _ b _, h, symbol, hmem => b.placed_symbols h.2.2 symbol hmem
  | .ret .., _, _, hmem => absurd hmem List.not_mem_nil

/-- The `symbols` that a block declares have the places of their declarations. -/
theorem Block.placed_symbols :
    ∀ b : Block, b.toNode.Placed ts → ∀ symbol ∈ b.symbols, symbol.Placed ts
  | .mk ss _, h => Stmt.placed_symbolsAll ss h.2

theorem Stmt.placed_symbolsAll : ∀ ss : List Stmt, Node.AllPlaced ts (Stmt.toNodes ss) →
    ∀ symbol ∈ Stmt.symbolsAll ss, symbol.Placed ts
  | [], _, _, hmem => absurd hmem List.not_mem_nil
  | s :: ss, h, symbol, hmem => by
    rcases List.mem_append.1 hmem with hmem | hmem
    · exact s.placed_symbols h.1 symbol hmem
    · exact Stmt.placed_symbolsAll ss h.2 symbol hmem

end

/-- The parameters of a function that is `Placed` have their places. -/
theorem Function.placed_params {f : Function} (h : f.toNode.Placed ts) :
    ∀ p ∈ f.params, p.toNode.Placed ts :=
  List.forall_mem_map.1 (Node.allPlaced_iff.1 h.2.1)

/-- The `symbol` of a function stands where the function is declared. -/
theorem Function.placed_symbol {f : Function} (h : f.toNode.Placed ts) : f.symbol.Placed ts := by
  refine ⟨h.1, fun signature hsignature => ?_⟩
  obtain rfl : ⟨f.params, f.result⟩ = signature := Option.some.inj hsignature
  exact ⟨rfl, f.placed_params h⟩

/-- The `symbols` of a function, parameters first, have the places of their declarations. -/
theorem Function.placed_symbols {f : Function} (h : f.toNode.Placed ts) :
    ∀ symbol ∈ f.symbols, symbol.Placed ts := by
  refine List.forall_mem_append.2 ⟨List.forall_mem_map.2 fun p hp => ?_,
    f.body.placed_symbols h.2.2⟩
  exact p.placed_symbol (f.placed_params h p hp)

/-- One of the `firsts` is one of all symbols. -/
theorem Symbol.mem_of_mem_firsts {symbol : Symbol} {symbols : List Symbol}
    (h : symbol ∈ Symbol.firsts symbols) : symbol ∈ symbols := by
  induction symbols with
  | nil => cases h
  | cons s ss ih =>
    rcases List.mem_cons.1 h with rfl | h
    · exact List.mem_cons_self
    · exact List.mem_cons_of_mem _ (ih (List.mem_of_mem_filter h))

/-- In a program whose names are `Unnumbered`, all symbols have their places. -/
theorem placed_of_mem_table {p : Program} (hnames : ∀ f ∈ p.functions, f.Unnumbered)
    (h : p.toNode.Placed ts) :
    ∀ scope ∈ (analyze p).table.scopes, ∀ symbol ∈ scope.symbols, symbol.Placed ts := by
  have hfunctions : ∀ f ∈ p.functions, f.toNode.Placed ts :=
    List.forall_mem_map.1 (Node.allPlaced_iff.1 h.2)
  -- the first symbol of each name is kept, and it is one of those that are declared
  have hbindings := firstBindings_of_unnumbered hnames
  refine List.forall_mem_cons.2 ⟨fun symbol hsymbol => ?_, fun scope hscope symbol hsymbol => ?_⟩
  · rw [hbindings.globals] at hsymbol
    obtain ⟨f, hf, rfl⟩ := List.mem_map.1 (Symbol.mem_of_mem_firsts hsymbol)
    exact Function.placed_symbol (hfunctions f hf)
  · rw [(analyze_visiting p).1, Typing.locals_visiting hnames] at hscope
    obtain ⟨lead, f, rest, hsplit, rfl⟩ := Function.exists_of_mem_scopesBehind hscope
    have hf : f ∈ p.functions := hsplit ▸ List.mem_append_right _ List.mem_cons_self
    exact Function.placed_symbols (hfunctions f hf) symbol (Symbol.mem_of_mem_firsts hsymbol)

/-! ### Findings -/

/-- What is found wrong with types stands at a token: with an unknown name at the name, and with a
declaration at a type next to the declared name. -/
def TypingCause.Placed (ts : List Token) (pos : Pos) : TypingCause → Prop
  | undefinedIdentifier x => pos.Named ts x
  | undefinedFunction x => pos.Named ts x
  | notAFunction x => pos.Named ts x
  | functionRedeclared x => ∃ type, pos.Declared ts type x
  | parameterRedeclared x => ∃ type, pos.Declared ts type x
  | variableRedeclared x => ∃ type, pos.Declared ts type x
  | _ => pos.Marked ts

/-- What an expression `Accuses` stands at tokens if the expression does. -/
theorem Expr.placed_of_accuses {e : Expr} {found : Finding TypingCause} (h : e.toNode.Placed ts)
    (hfound : e.Accuses found) : found.cause.Placed ts found.pos := by
  cases hfound with
  | undefined => exact h
  | misused => exact Pos.Named.marked h
  | undefinedFunction => exact h.2.1
  | notAFunction => exact h.2.1
  | argumentType harg => exact Expr.marked_of_placed (Node.allPlaced_toNodes_iff.1 h.2.2 _ harg)
  | undefinedTarget => exact h.2.1
  | _ => exact h.1

mutual

/-- The `parts` of an expression stand at tokens if the expression does. -/
theorem Expr.placed_of_mem_parts : ∀ e : Expr, e.toNode.Placed ts →
    ∀ part ∈ e.parts, part.toNode.Placed ts
  | .literal .., h => List.forall_mem_singleton.2 h
  | .ident .., h => List.forall_mem_singleton.2 h
  | .unary _ e _, h => List.forall_mem_cons.2 ⟨h, e.placed_of_mem_parts h.2⟩
  | .binary _ l r _, h => List.forall_mem_cons.2
    ⟨h, List.forall_mem_append.2 ⟨l.placed_of_mem_parts h.2.1, r.placed_of_mem_parts h.2.2⟩⟩
  | .call _ args _, h => List.forall_mem_cons.2 ⟨h, Expr.placed_of_mem_partsAll args h.2.2⟩
  | .assign _ e _, h => List.forall_mem_cons.2 ⟨h, e.placed_of_mem_parts h.2.2⟩

theorem Expr.placed_of_mem_partsAll : ∀ es : List Expr, Node.AllPlaced ts (Expr.toNodes es) →
    ∀ part ∈ Expr.partsAll es, part.toNode.Placed ts
  | [], _ => fun _ hmem => absurd hmem List.not_mem_nil
  | e :: es, h =>
    List.forall_mem_append.2 ⟨e.placed_of_mem_parts h.1, Expr.placed_of_mem_partsAll es h.2⟩

end

/-- What an expression `Blames` stands at tokens if the expression does. -/
theorem Expr.placed_of_blames {e : Expr} {found : Finding TypingCause} (h : e.toNode.Placed ts)
    (hfound : e.Blames found) : found.cause.Placed ts found.pos := by
  obtain ⟨part, hpart, hfound⟩ := hfound
  exact Expr.placed_of_accuses (e.placed_of_mem_parts h part hpart) hfound

mutual

/-- What a statement `Blames` stands at tokens if the statement does. -/
theorem Stmt.placed_of_blames {found : Finding TypingCause} : ∀ s : Stmt, s.toNode.Placed ts →
    s.Blames found → found.cause.Placed ts found.pos
  | .expr .., h, hfound => Expr.placed_of_blames h.2 hfound
  | .declare t _ _ _, h, hfound => by
    rcases hfound with rfl | ⟨u, rfl⟩ | ⟨e, he, hfound⟩
    · exact ⟨t, h.1⟩
    · exact h.1.marked
    · exact Expr.placed_of_blames (Node.placed_ofExpr?_iff.1 h.2 e he) hfound
  | .ifThen _ b _, h, hfound => by
    rcases hfound with rfl | hfound | hfound
    · exact Expr.marked_of_placed h.2.1
    · exact Expr.placed_of_blames h.2.1 hfound
    · exact b.placed_of_blames h.2.2.1 hfound
  | .ifElse _ b a _, h, hfound => by
    rcases hfound with rfl | hfound | hfound | hfound
    · exact Expr.marked_of_placed h.2.1
    · exact Expr.placed_of_blames h.2.1 hfound
    · exact b.placed_of_blames h.2.2.1 hfound
    · exact a.placed_of_blames h.2.2.2 hfound
  | .loop _ b _, h, hfound => by
    rcases hfound with rfl | hfound | hfound
    · exact Expr.marked_of_placed h.2.1
    · exact Expr.placed_of_blames h.2.1 hfound
    · exact b.placed_of_blames h.2.2 hfound
  | .ret _ _, h, hfound => by
    rcases hfound with ⟨rfl, hcause⟩ | ⟨e, he, hfound⟩
    · obtain ⟨cause, pos⟩ := found
      -- a return statement is blamed for itself only where no name is
      cases cause with
      | returnOutside => exact h.1
      | mustReturn => exact h.1
      | mustReturnGot => exact h.1
      | _ => exact hcause.elim
    · exact Expr.placed_of_blames (Node.placed_ofExpr?_iff.1 h.2 e he) hfound

/-- What a block `Blames` stands at tokens if the block does. -/
theorem Block.placed_of_blames {found : Finding TypingCause} : ∀ b : Block, b.toNode.Placed ts →
    b.Blames found → found.cause.Placed ts found.pos
  | .mk ss _, h, hfound => Stmt.placed_of_blamesAny ss h.2 hfound

theorem Stmt.placed_of_blamesAny {found : Finding TypingCause} : ∀ ss : List Stmt,
    Node.AllPlaced ts (Stmt.toNodes ss) → Stmt.BlamesAny found ss → found.cause.Placed ts found.pos
  | [], _, hfound => hfound.elim
  | s :: ss, h, hfound => by
    rcases hfound with hfound | hfound
    · exact s.placed_of_blames h.1 hfound
    · exact Stmt.placed_of_blamesAny ss h.2 hfound

end

/-- What a function `Blames` stands at tokens if the function does. -/
theorem Function.placed_of_blames {f : Function} {found : Finding TypingCause}
    (h : f.toNode.Placed ts) (hfound : f.Blames found) : found.cause.Placed ts found.pos := by
  rcases hfound with rfl | ⟨p, hp, rfl⟩ | hfound
  · exact ⟨f.result, h.1⟩
  · exact ⟨p.type, f.placed_params h p hp⟩
  · exact f.body.placed_of_blames h.2.2 hfound

/-- The findings of `analyze` stand at tokens if the program does. -/
theorem placed_of_mem_findings {p : Program} (h : p.toNode.Placed ts) :
    ∀ found ∈ (analyze p).findings, found.cause.Placed ts found.pos := by
  intro found hfound
  obtain ⟨f, hf, hblames⟩ := blames_of_mem_findings hfound
  have hfunctions : ∀ f ∈ p.functions, f.toNode.Placed ts :=
    List.forall_mem_map.1 (Node.allPlaced_iff.1 h.2)
  exact Function.placed_of_blames (hfunctions f hf) hblames

end

/-! ### Compilations -/

/-- All that the compilation shows stands at its tokens, and at the right ones. -/
structure Compilation.Placed (c : Compilation) : Prop where
  program : ∃ p, c.program = some p ∧ p.toNode.outline = .ok p.outline ∧
    ∀ o ∈ p.outline.nodes, o.Placed c.tokens
  table : ∀ table ∈ c.table, ∀ scope ∈ table.scopes, ∀ symbol ∈ scope.symbols,
    symbol.Placed c.tokens
  grammar : ∀ found ∈ c.grammar, found.pos.Marked c.tokens
  typing : ∀ found ∈ c.typing, found.cause.Placed c.tokens found.pos

namespace Compilation

variable {c : Compilation} {p : Program}

/-- A compilation with a program that is `Placed` is `Placed`. -/
theorem placed_withProgram (options : Options) (houtline : p.toNode.outline = .ok p.outline)
    (hp : p.toNode.Placed c.tokens) {found : List (Finding GrammarCause)}
    (hfound : ∀ f ∈ found, f.pos.Marked c.tokens) (htable : c.table = none)
    (htyping : c.typing = []) :
    (c.withProgram options p found).Placed := by
  refine ⟨⟨p, rfl, houtline, Node.gives_outline _ hp _ houtline⟩, ?_, hfound, ?_⟩
  · show ∀ table ∈ c.table, _
    rw [htable]
    exact fun _ hmem => by cases hmem
  · show ∀ found ∈ c.typing, _
    rw [htyping]
    exact fun _ hmem => by cases hmem

theorem placed_of_mem_tooDeep {ts : List Token} (hp : p.toNode.Placed ts) :
    ∀ found ∈ tooDeep p, found.cause.Placed ts found.pos :=
  List.forall_mem_singleton.2 hp.1

/-- A compilation with symbols is `Placed` if it was so before. -/
theorem Placed.withSymbols (h : c.Placed) (options : Options) (hp : p.toNode.Placed c.tokens)
    (hnames : ∀ f ∈ p.functions, f.Unnumbered) : (c.withSymbols options p).Placed := by
  unfold Compilation.withSymbols
  by_cases hoverflow : options.overflow = some .check
  · simp only [hoverflow, if_true]
    refine { h with table := ?_, typing := placed_of_mem_tooDeep hp }
    -- there is nothing in the only scope
    intro table htable
    obtain rfl : SymbolTable.empty = table := Option.some.inj htable
    exact List.forall_mem_singleton.2 fun _ hmem => by cases hmem
  · simp only [hoverflow, if_false]
    refine { h with table := ?_, typing := placed_of_mem_findings hp }
    intro table htable
    obtain rfl : (analyze p).table = table := Option.some.inj htable
    exact placed_of_mem_table hnames hp

/-- A compilation with code is `Placed` if it was so before. -/
theorem Placed.withCode (h : c.Placed) (options : Options) (hp : p.toNode.Placed c.tokens) :
    (c.withCode options p).Placed := by
  unfold Compilation.withCode
  split
  · exact { h with typing := placed_of_mem_tooDeep hp }
  · split
    · exact { h with }
    · exact { h with }

end Compilation

/-- In a text without lexical findings, everything that its compilation shows is `Placed`: it stands
at the right token. -/
theorem placed_compile (options : Options) {source : String}
    (h : (compile options source).lexical = []) : (compile options source).Placed := by
  have hend : ∃ t ∈ (scan source).1, t.tag = .eof := by
    obtain ⟨ts, stop, hscan, hstop, -⟩ := scan_eq source
    exact ⟨stop, hscan ▸ List.mem_append_right _ List.mem_cons_self, hstop⟩
  have hplaced := placed_parse hend
  have hmarked := marked_of_mem_parse hend
  have hnames := unnumbered_parse source
  have houtline : (parse (scan source).1).1.toNode.outline =
      .ok (parse (scan source).1).1.outline :=
    (Program.bounded_of_low fun _ => Parser.low_of_mem_parse).outline
  have htokens : (Compilation.ofSource options source).tokens = (scan source).1 := rfl
  have hparsed := Compilation.placed_withProgram (c := .ofSource options source) options
    houtline hplaced hmarked rfl rfl
  have hchecked := hparsed.withSymbols options hplaced hnames
  -- the stages of the compilation are added one by one, up to where it stops
  unfold compile at h ⊢
  dsimp only at h ⊢
  rw [htokens] at h ⊢
  split
  · next hfound =>
    rw [if_pos hfound] at h
    simp [h] at hfound
  split
  · exact hparsed
  split
  · exact hchecked
  · exact hchecked.withCode options hplaced

/-- A function that mentions an unknown name and is declared again. -/
def unknownName : String :=
  "int f(int x) \x7b return x + y; \x7d\nvoid f() \x7b g(1); \x7d"

/-- In `unknownName`, the unknown names and the second declaration are reported where they are
written. -/
theorem placed_compile_unknownName :
    (compile ⟨false, none⟩ unknownName).lexical = [] ∧
      (compile ⟨false, none⟩ unknownName).typing =
        [⟨.undefinedIdentifier "y", ⟨1, 27⟩⟩, ⟨.functionRedeclared "f", ⟨2, 1⟩⟩,
          ⟨.undefinedFunction "g", ⟨2, 12⟩⟩] ∧
      (compile ⟨false, none⟩ unknownName).Placed := by
  have hlexical : (compile ⟨false, none⟩ unknownName).lexical = [] := by decide +kernel
  exact ⟨hlexical, by decide +kernel, placed_compile _ hlexical⟩

end Tricode
