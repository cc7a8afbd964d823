import Tricode.Proofs.Grammar

/-!
# Places for a statement

A gap is a place where one more statement could stand: in a block, in front of its first statement,
between two of them or behind the last. It is given by what stands around it, that is by a
statement, a block, a function or a program in which the place is left open (`Stmt.Gap`,
`Block.Gap`, `Function.Gap`, `Program.Gap`). With no statement in it, the gap is the whole program;
with statements in it, it is the program in which these have been inserted.

The grammar knows gaps, too: `Grammar.ProgramGap A B g` says that the tokens `A` stand in front of
the gap and the tokens `B` behind it. If the tokens of a program denote `g.fill []`, they can be
split in this way (`Grammar.exists_programGap`), so each place between two statements of a program
is one between two of its tokens.
-/

namespace Tricode

/-! ### Gaps -/

mutual

/-- A statement with a gap in one of its blocks. -/
inductive Stmt.Gap where
  | ifThen (cond : Expr) (body : Block.Gap) (pos : Pos)
  | ifElseBody (cond : Expr) (body : Block.Gap) (alternative : Block) (pos : Pos)
  | ifElseAlternative (cond : Expr) (body : Block) (alternative : Block.Gap) (pos : Pos)
  | loop (cond : Expr) (body : Block.Gap) (pos : Pos)

/-- A block with a gap. -/
inductive Block.Gap where
  /-- The gap is between these statements. -/
  | here (before after : List Stmt) (pos : Pos)
  /-- The gap is further in, in this statement. -/
  | within (before : List Stmt) (statement : Stmt.Gap) (after : List Stmt) (pos : Pos)

end

/-- A function with a gap in its body. -/
structure Function.Gap where
  result : Ty
  name : String
  params : List Param
  body : Block.Gap
  pos : Pos

/-- A program with a gap in one of its functions. -/
structure Program.Gap where
  before : List Function
  function : Function.Gap
  after : List Function
  pos : Pos

mutual

/-- The statement with `ss` in the gap. -/
def Stmt.Gap.fill (ss : List Stmt) : Stmt.Gap → Stmt
  | .ifThen c g pos => .ifThen c (g.fill ss) pos
  | .ifElseBody c g a pos => .ifElse c (g.fill ss) a pos
  | .ifElseAlternative c b g pos => .ifElse c b (g.fill ss) pos
  | .loop c g pos => .loop c (g.fill ss) pos

/-- The block with `ss` in the gap. -/
def Block.Gap.fill (ss : List Stmt) : Block.Gap → Block
  | .here before after pos => .mk (before ++ ss ++ after) pos
  | .within before g after pos => .mk (before ++ g.fill ss :: after) pos

end

mutual

/-- In how many blocks of a statement the gap lies. -/
def Stmt.Gap.depth : Stmt.Gap → Nat
  | .ifThen _ g _ => g.depth
  | .ifElseBody _ g _ _ => g.depth
  | .ifElseAlternative _ _ g _ => g.depth
  | .loop _ g _ => g.depth

/-- In how many blocks of a block, itself counted, the gap lies. -/
def Block.Gap.depth : Block.Gap → Nat
  | .here .. => 1
  | .within _ g _ _ => g.depth + 1

end

/-- The function with `ss` in the gap. -/
def Function.Gap.fill (ss : List Stmt) (g : Function.Gap) : Function :=
  ⟨g.result, g.name, g.params, g.body.fill ss, g.pos⟩

/-- The program with `ss` in the gap. -/
def Program.Gap.fill (ss : List Stmt) (g : Program.Gap) : Program :=
  ⟨g.before ++ g.function.fill ss :: g.after, g.pos⟩

/-- In how many blocks the gap lies. -/
def Program.Gap.depth (g : Program.Gap) : Nat :=
  g.function.body.depth

/-! ### Gaps between tokens -/

namespace Grammar

mutual

/-- The tokens in front of the gap of a statement, and those behind it. -/
inductive StatementGap : Nat → List Token → List Token → Stmt.Gap → Prop where
  | ifThen {n : Nat} {word l r : Token} {w A B : List Token} {e : Expr} {g : Block.Gap}
    (hword : word.isKeyword ["if"] = true) (hl : l.tag = .leftParen) (cond : Expression n w e)
    (hr : r.tag = .rightParen) (body : BlockGap n A B g) :
    StatementGap n (word :: l :: w ++ r :: A) B (.ifThen e g word.pos)
  | ifElseBody {n : Nat} {word l r other : Token} {w A B u : List Token} {e : Expr}
    {g : Block.Gap} {a : Tricode.Block} (hword : word.isKeyword ["if"] = true)
    (hl : l.tag = .leftParen) (cond : Expression n w e) (hr : r.tag = .rightParen)
    (body : BlockGap n A B g) (hother : other.isKeyword ["else"] = true)
    (alternative : Block n u a) :
    StatementGap n (word :: l :: w ++ r :: A) (B ++ other :: u) (.ifElseBody e g a word.pos)
  | ifElseAlternative {n : Nat} {word l r other : Token} {w v A B : List Token} {e : Expr}
    {b : Tricode.Block} {g : Block.Gap} (hword : word.isKeyword ["if"] = true)
    (hl : l.tag = .leftParen) (cond : Expression n w e) (hr : r.tag = .rightParen)
    (body : Block n v b) (hother : other.isKeyword ["else"] = true)
    (alternative : BlockGap n A B g) :
    StatementGap n (word :: l :: w ++ r :: v ++ other :: A) B (.ifElseAlternative e b g word.pos)
  | loop {n : Nat} {word l r : Token} {w A B : List Token} {e : Expr} {g : Block.Gap}
    (hword : word.isKeyword ["while"] = true) (hl : l.tag = .leftParen) (cond : Expression n w e)
    (hr : r.tag = .rightParen) (body : BlockGap n A B g) :
    StatementGap n (word :: l :: w ++ r :: A) B (.loop e g word.pos)

/-- The tokens in front of the gap of a block, and those behind it. -/
inductive BlockGap : Nat → List Token → List Token → Block.Gap → Prop where
  | here {n : Nat} {l r : Token} {w v : List Token} {ss ss' : List Stmt} (hl : l.tag = .leftBrace)
    (before : Statements n w ss) (after : Statements n v ss') (hr : r.tag = .rightBrace) :
    BlockGap (n + 1) (l :: w) (v ++ [r]) (.here ss ss' l.pos)
  | within {n : Nat} {l r : Token} {w A B v : List Token} {ss ss' : List Stmt} {g : Stmt.Gap}
    (hl : l.tag = .leftBrace) (before : Statements n w ss) (inner : StatementGap n A B g)
    (after : Statements n v ss') (hr : r.tag = .rightBrace) :
    BlockGap (n + 1) (l :: w ++ A) (B ++ v ++ [r]) (.within ss g ss' l.pos)

end

/-- The tokens in front of the gap of a function, and those behind it. -/
inductive FunctionGap (n : Nat) : List Token → List Token → Function.Gap → Prop where
  | mk {type name l r : Token} {w A B : List Token} {ps : List Param} {g : Block.Gap}
    (htype : type.isKeyword ["int", "float", "bool", "void"] = true)
    (hname : name.tag = .identifier) (hl : l.tag = .leftParen) (params : Parameters w ps)
    (hr : r.tag = .rightParen) (body : BlockGap n A B g) :
    FunctionGap n (type :: name :: l :: w ++ r :: A) B
      ⟨.ofName type.text, name.text, ps, g, type.pos⟩

/-- The tokens in front of the gap of a program, and those behind it, of which only those up to the
end of the text matter. -/
inductive ProgramGap : List Token → List Token → Program.Gap → Prop where
  | mk {u A B v rest : List Token} {fs gs : List Tricode.Function} {g : Function.Gap}
    (before : Sequence (Function 50) u fs) (inner : FunctionGap 50 A B g)
    (after : Sequence (Function 50) v gs) (hend : (rest.headD .beyond).isEnd = true) :
    ProgramGap (u ++ A) (B ++ v ++ rest) ⟨fs, g, gs, ((u ++ A).headD .beyond).pos⟩

/-! ### Every gap of a tree is one between tokens -/

/-- `Statements` in two parts stand in two parts of the tokens. -/
theorem Statements.exists_append {n : Nat} {w : List Token} {ss ss' : List Stmt}
    (h : Statements n w (ss ++ ss')) :
    ∃ u v, w = u ++ v ∧ Statements n u ss ∧ Statements n v ss' := by
  induction ss generalizing w with
  | nil => exact ⟨[], w, rfl, .nil, h⟩
  | cons s ss ih =>
    cases h with
    | cons first others =>
      obtain ⟨u, v, rfl, hu, hv⟩ := ih others
      exact ⟨_ ++ u, v, by simp, .cons first hu, hv⟩

/-- A `Sequence` in two parts stands in two parts of the tokens. -/
theorem Sequence.exists_append {α : Type} {item : List Token → α → Prop} {w : List Token}
    {as bs : List α} (h : Sequence item w (as ++ bs)) :
    ∃ u v, w = u ++ v ∧ Sequence item u as ∧ Sequence item v bs := by
  induction as generalizing w with
  | nil => exact ⟨[], w, rfl, .nil, h⟩
  | cons a as ih =>
    cases h with
    | cons first others =>
      obtain ⟨u, v, rfl, hu, hv⟩ := ih others
      exact ⟨_ ++ u, v, by simp, .cons first hu, hv⟩

mutual

/-- Where a `Gap` of a statement is left empty, it stands between two parts of the tokens. -/
theorem exists_statementGap {n : Nat} (g : Stmt.Gap) {w : List Token}
    (h : Statement n w (g.fill [])) : ∃ A B, w = A ++ B ∧ StatementGap n A B g := by
  -- by recursion on the gap: the token list is split where the block inside is
  match g with
  | .ifThen c g pos =>
    cases h with
    | ifThen hword hl cond hr body =>
      obtain ⟨A, B, rfl, hgap⟩ := exists_blockGap g body
      exact ⟨_, B, by simp, .ifThen hword hl cond hr hgap⟩
  | .ifElseBody c g a pos =>
    cases h with
    | ifElse hword hl cond hr body hother alternative =>
      obtain ⟨A, B, rfl, hgap⟩ := exists_blockGap g body
      exact ⟨_, _, by simp, .ifElseBody hword hl cond hr hgap hother alternative⟩
  | .ifElseAlternative c b g pos =>
    cases h with
    | ifElse hword hl cond hr body hother alternative =>
      obtain ⟨A, B, rfl, hgap⟩ := exists_blockGap g alternative
      exact ⟨_, B, by simp, .ifElseAlternative hword hl cond hr body hother hgap⟩
  | .loop c g pos =>
    cases h with
    | loop hword hl cond hr body =>
      obtain ⟨A, B, rfl, hgap⟩ := exists_blockGap g body
      exact ⟨_, B, by simp, .loop hword hl cond hr hgap⟩

/-- Where a `Gap` of a block is left empty, it stands between two parts of the tokens. -/
theorem exists_blockGap {n : Nat} (g : Block.Gap) {w : List Token} (h : Block n w (g.fill [])) :
    ∃ A B, w = A ++ B ∧ BlockGap n A B g := by
  match g with
  | .here before after pos =>
    rw [Block.Gap.fill, List.append_nil] at h
    cases h with
    | mk hl inner hr =>
      -- the statements of the block are split in front of the gap
      obtain ⟨u, v, rfl, hu, hv⟩ := inner.exists_append
      exact ⟨_, _, by simp, .here hl hu hv hr⟩
  | .within before g after pos =>
    rw [Block.Gap.fill] at h
    cases h with
    | mk hl inner hr =>
      obtain ⟨u, v, rfl, hu, hv⟩ := inner.exists_append
      cases hv with
      | cons first others =>
        obtain ⟨A, B, rfl, hgap⟩ := exists_statementGap g first
        exact ⟨_, _, by simp, .within hl hu hgap others hr⟩

end

/-- Where a `Gap` of a function is left empty, it stands between two parts of the tokens. -/
theorem exists_functionGap {n : Nat} {g : Function.Gap} {w : List Token}
    (h : Function n w (g.fill [])) : ∃ A B, w = A ++ B ∧ FunctionGap n A B g := by
  obtain ⟨result, name, params, body, pos⟩ := g
  rw [Function.Gap.fill] at h
  cases h with
  | mk htype hname hl hparams hr hbody =>
    obtain ⟨A, B, rfl, hgap⟩ := exists_blockGap body hbody
    exact ⟨_, B, by simp, .mk htype hname hl hparams hr hgap⟩

/-- In front of the `Gap` of a function there is at least its type. -/
theorem FunctionGap.exists_cons {n : Nat} {A B : List Token} {g : Function.Gap}
    (h : FunctionGap n A B g) : ∃ t v, A = t :: v := by
  cases h with
  | mk => exact ⟨_, _, rfl⟩

/-- Where a `Gap` of a program is left empty, it stands between two parts of the tokens, a
`ProgramGap`. -/
theorem exists_programGap {g : Program.Gap} {w rest : List Token}
    (h : Sequence (Function 50) w (g.fill []).functions) (hend : (rest.headD .beyond).isEnd = true)
    (hpos : g.pos = ((w ++ rest).headD .beyond).pos) :
    ∃ A B, w ++ rest = A ++ B ∧ ProgramGap A B g := by
  obtain ⟨before, g, after, pos⟩ := g
  have hsequence : Sequence (Function 50) w (before ++ g.fill [] :: after) := h
  obtain ⟨u, v, rfl, hu, hv⟩ := hsequence.exists_append
  cases hv with
  | @cons _ v _ _ first others =>
    obtain ⟨A, B, rfl, hgap⟩ := exists_functionGap first
    -- the program stands at its first token, which lies in front of the gap
    have hfirst : pos = ((u ++ A).headD .beyond).pos := by
      obtain ⟨t, A, rfl⟩ := hgap.exists_cons
      refine Eq.trans hpos ?_
      cases u <;> rfl
    refine ⟨u ++ A, B ++ v ++ rest, by simp, ?_⟩
    rw [hfirst]
    exact .mk hu hgap others hend

end Grammar

end Tricode
