import Tricode.Proofs.Parser.Alignment

/-!
# Trees from aligned tokens

The parser puts a tree together from tokens and from smaller trees, and there are no other trees. So
a comparison of trees that passes from the parts of an expression to the expression (`ExprPairing`),
from there to statements and blocks (`StmtPairing`) and to functions (`FunctionPairing`) holds
between the programs that the parser finds in aligned lists, whatever the tokens are and however
often it had to recover (`parse_aligned`).

Statements and blocks are compared at the room that was left for nesting where they stand.
-/

namespace Tricode

/-- The name that an expression is, if it is one. -/
def Expr.name? : Expr → Option (String × Pos)
  | ident x pos => some (x, pos)
  | _ => none

/-- The token is a literal of this kind. -/
def Token.Denotes (t : Token) : LiteralKind → Prop
  | .int => t.tag = .intLiteral
  | .float => t.tag = .floatLiteral
  | .bool => t.isKeyword Parser.truthWords = true

namespace Parser

open Pass Pass.Pairing Parser.Alignment

/-! ### Expressions -/

/-- `E` holds between what stands by itself in aligned lists, and passes from the parts of
expressions that are not too deep to the expressions. -/
structure ExprPairing (A : Alignment) (E : Measured → Measured → Prop) : Prop where
  depth_eq {m n : Measured} : E m n → m.depth = n.depth
  named {m n : Measured} : E m n → Option.Rel (fun _ _ => True) m.expr.name? n.expr.name?
  literal {t u : Token} (kind : LiteralKind) : A.Taken t u → t.Denotes kind →
    E (leaf (.literal kind t.text t.pos)) (leaf (.literal kind u.text u.pos))
  ident {t u : Token} : A.Taken t u → t.tag = .identifier →
    E (leaf (.ident t.text t.pos)) (leaf (.ident u.text u.pos))
  unary {t u : Token} {m n : Measured} : A.Taken t u → t.tag ∈ [.logicalNot, .minus] → E m n →
    m.depth < maxDepth →
      E ⟨.unary t.text m.expr t.pos, m.depth + 1⟩ ⟨.unary u.text n.expr u.pos, n.depth + 1⟩
  binary {ops : List Tag} {t u : Token} {l r l' r' : Measured} :
    ops ∈ levels → A.Taken t u → t.tag ∈ ops → E l l' → E r r' → max l.depth r.depth < maxDepth →
      E ⟨.binary t.text l.expr r.expr t.pos, max l.depth r.depth + 1⟩
        ⟨.binary u.text l'.expr r'.expr u.pos, max l'.depth r'.depth + 1⟩
  call {f g : Measured} {args args' : List Measured} : E f g → List.Forall₂ E args args' →
    args.foldl (fun d arg => max d arg.depth) f.depth < maxDepth →
      E ⟨.call f.expr (args.map Measured.expr) f.expr.pos,
          args.foldl (fun d arg => max d arg.depth) f.depth + 1⟩
        ⟨.call g.expr (args'.map Measured.expr) g.expr.pos,
          args'.foldl (fun d arg => max d arg.depth) g.depth + 1⟩
  assign {m n v v' : Measured} {x y : String} {p q : Pos} : E m n → m.expr.name? = some (x, p) →
    n.expr.name? = some (y, q) → E v v' → v.depth < maxDepth →
      E ⟨.assign x v.expr p, v.depth + 1⟩ ⟨.assign y v'.expr q, v'.depth + 1⟩

/-- What `assignment` does with the value: a name is assigned to, and else the sign is to blame. -/
def assigned (target : Option (String × Pos)) (value : Measured) (sign : Token) : Parser Measured :=
  match target with
  | some (x, pos) => compound (.assign x value.expr pos) value.depth sign
  | none => failAt .invalidTarget sign

/-- What `assignment` does behind its target. -/
def assignedTo (inner : Option (Parser Measured)) (target : Measured) :
    Option Token → Parser Measured
  | none => pure target
  | some sign => do
    let value ← nested .expression inner sign id
    assigned target.expr.name? value sign

/-- An `assignment`, with what happens behind its target as a function of the sign. -/
theorem assignment_eq (inner : Option (Parser Measured)) :
    assignment inner = (do
      let target ← binary inner levels
      let sign? ← accept [.assign]
      assignedTo inner target sign?) := by
  refine congrArg (fun further => binary inner levels >>= further) (funext fun target => ?_)
  refine congrArg (fun further => accept [.assign] >>= further) (funext fun sign? => ?_)
  cases sign? with
  | none => rfl
  | some sign =>
    refine congrArg (fun further => nested .expression inner sign id >>= further)
      (funext fun value => ?_)
    cases target.expr <;> rfl

section

variable {A : Alignment} {E : Measured → Measured → Prop} {inner : Option (Parser Measured)}

/-- For `compound`, expressions of one depth are too deep together. -/
theorem agrees_compound {e e' : Expr} {below below' : Nat} {t u : Token} (hbelow : below = below')
    (h : below < maxDepth → E ⟨e, below + 1⟩ ⟨e', below' + 1⟩) (ht : A.Front t u) :
    A.Agrees (compound e below t) (compound e' below' u) E := by
  subst hbelow
  unfold compound
  by_cases hdepth : below + 1 > maxDepth
  · rw [if_pos hdepth, if_pos hdepth]
    exact agrees_failAt ht _
  · rw [if_neg hdepth, if_neg hdepth]
    have hlt : below < maxDepth := by omega
    exact agrees_pure (h hlt)

/-- A token is `Taken`, and a leaf made of it. -/
theorem relates_leaf {t u : Token} {m n : Measured} (htag : t.tag ≠ .eof)
    (h : A.Taken t u → E m n) :
    A.Relates (A.Facing t u) (do skip; pure m : Parser Measured) (do skip; pure n)
      fun m n ts us => E m n ∧ A.states ts us :=
  (relates_skip htag).bind fun _ _ => relates_pure fun _ _ htaken => ⟨h htaken.taken, htaken.after⟩

theorem agrees_primary (laws : ExprPairing A E) (h : Inner A E inner) :
    A.Agrees (primary inner) (primary inner) E := by
  refine relates_peek.bind fun t u ts us hfacing => ?_
  have hfront : A.Front t u := ⟨ts, us, hfacing⟩
  have hkeyword := hfront.isKeyword_eq truthWords
  by_cases htruth : t.isKeyword truthWords = true
  · have htag : t.tag ≠ .eof := by
      rw [(isKeyword_eq_true_iff.1 htruth).1]
      decide
    rw [if_pos htruth, if_pos (hkeyword ▸ htruth)]
    exact relates_leaf htag (fun ht => laws.literal .bool ht htruth) ts us hfacing
  · rw [if_neg htruth, if_neg (hkeyword ▸ htruth)]
    -- the tokens have one tag, and so the cases are the same on both sides
    obtain ⟨tag, text, pos⟩ := t
    obtain ⟨tag', text', pos'⟩ := u
    obtain rfl : tag = tag' := hfront.tag_eq
    cases tag with
    | intLiteral =>
      have hkind : Token.Denotes ⟨.intLiteral, text, pos⟩ .int := rfl
      exact relates_leaf (by simp) (fun ht => laws.literal .int ht hkind) ts us hfacing
    | floatLiteral =>
      have hkind : Token.Denotes ⟨.floatLiteral, text, pos⟩ .float := rfl
      exact relates_leaf (by simp) (fun ht => laws.literal .float ht hkind) ts us hfacing
    | identifier => exact relates_leaf (by simp) (fun ht => laws.ident ht rfl) ts us hfacing
    | leftParen =>
      have hinside : A.Agrees
          (do
            let e ← nested .expression inner ⟨.leftParen, text, pos⟩ id
            let _ ← expect .rightParen (.expected .closeAfterExpression)
            pure e)
          (do
            let e ← nested .expression inner ⟨.leftParen, text', pos'⟩ id
            let _ ← expect .rightParen (.expected .closeAfterExpression)
            pure e) E :=
        (agrees_nested h hfront fun _ hp => hp).bind fun _ _ he =>
          (agrees_expect _ _).bind fun _ _ _ => agrees_pure he
      exact (relates_skip (by simp)).bind (fun _ _ =>
        hinside.mono (fun _ _ hbehind => hbehind.after) fun _ _ _ _ => id) ts us hfacing
    | _ => exact agrees_failAt hfront _ ts us hfacing.1

/-- Arguments that compare one by one have one greatest depth. -/
theorem foldl_depth_eq (hdepth : ∀ m n, E m n → m.depth = n.depth) {args args' : List Measured}
    (h : List.Forall₂ E args args') (d : Nat) :
    args.foldl (fun d arg => max d arg.depth) d = args'.foldl (fun d arg => max d arg.depth) d := by
  induction h generalizing d with
  | nil => rfl
  | cons harg _ ih => rw [List.foldl_cons, List.foldl_cons, hdepth _ _ harg, ih]

theorem agrees_arguments (laws : ExprPairing A E) (h : Inner A E inner) {f g : Measured}
    (hcallee : E f g) {paren paren' : Token} (hparen : A.Front paren paren') :
    A.Agrees (arguments inner f paren) (arguments inner g paren') E := by
  refine (agrees_nested h hparen fun _ hp => agrees_listed hp).bind fun args args' hargs =>
    (agrees_expect _ _).bind fun _ _ _ => agrees_compound ?_ (laws.call hcallee hargs) hparen
  rw [laws.depth_eq hcallee, foldl_depth_eq (fun _ _ => laws.depth_eq) hargs]

theorem agrees_call (laws : ExprPairing A E) (h : Inner A E inner) :
    A.Agrees (call inner) (call inner) E := by
  rw [call_eq]
  refine (agrees_primary laws h).bind fun f g hcallee => agrees_loop (fun f g hcallee => ?_) hcallee
  exact agrees_behind fun _ _ hparen _ => agrees_arguments laws h hcallee hparen.front

/-- Prefix operators, the innermost first. -/
theorem agrees_prefixes (laws : ExprPairing A E) {ops ops' : List Token}
    (hops : List.Forall₂ (fun t u => A.Taken t u ∧ t.tag ∈ [.logicalNot, .minus]) ops ops')
    {m n : Measured} (hoperand : E m n) :
    A.Agrees
      (ops.foldlM (fun operand op => compound (.unary op.text operand.expr op.pos) operand.depth op)
        m : Parser Measured)
      (ops'.foldlM
        (fun operand op => compound (.unary op.text operand.expr op.pos) operand.depth op) n)
      E := by
  induction hops generalizing m n with
  | nil => exact agrees_pure hoperand
  | cons hop _ ih =>
    exact (agrees_compound (laws.depth_eq hoperand) (laws.unary hop.1 hop.2 hoperand)
      hop.1.front).bind fun _ _ hoperand' => ih hoperand'

theorem agrees_unary (laws : ExprPairing A E) (h : Inner A E inner) :
    A.Agrees (unary inner) (unary inner) E :=
  (agrees_many (agrees_accept _)).bind fun _ _ hops => (agrees_call laws h).bind fun _ _ hoperand =>
    agrees_prefixes laws (List.rel_reverse hops) hoperand

theorem agrees_operation (laws : ExprPairing A E) {ops : List Tag} (hops : ops ∈ levels)
    {operand : Parser Measured} (h : A.Agrees operand operand E) {l l' : Measured} (hleft : E l l')
    {t u : Token} (ht : A.Taken t u) (htag : t.tag ∈ ops) :
    A.Agrees (operation operand l t) (operation operand l' u) E := by
  refine h.bind fun r r' hright => agrees_compound ?_
    (laws.binary hops ht htag hleft hright) ht.front
  rw [laws.depth_eq hleft, laws.depth_eq hright]

theorem agrees_binary (laws : ExprPairing A E) (h : Inner A E inner) {tighter : List (List Tag)}
    (htighter : ∀ ops ∈ tighter, ops ∈ levels) :
    A.Agrees (binary inner tighter) (binary inner tighter) E := by
  induction tighter with
  | nil => exact agrees_unary laws h
  | cons ops tighter ih =>
    obtain ⟨hops, hrest⟩ := List.forall_mem_cons.1 htighter
    rw [binary, chain_eq]
    refine (ih hrest).bind fun l l' hfirst => agrees_loop (fun l l' hleft => ?_) hfirst
    exact agrees_behind fun _ _ ht htag => agrees_operation laws hops (ih hrest) hleft ht htag

/-- `assigned` agrees: the target is a name on both sides, or on none. -/
theorem agrees_assigned (laws : ExprPairing A E) {m n v v' : Measured} (htarget : E m n)
    (hvalue : E v v') {sign sign' : Token} (hsign : A.Front sign sign') :
    A.Agrees (assigned m.expr.name? v sign) (assigned n.expr.name? v' sign') E := by
  have hnamed := laws.named htarget
  generalize hx : m.expr.name? = x? at hnamed ⊢
  generalize hy : n.expr.name? = y? at hnamed ⊢
  cases hnamed with
  | none => exact agrees_failAt hsign _
  | some _ =>
    exact agrees_compound (laws.depth_eq hvalue) (laws.assign htarget hx hy hvalue) hsign

theorem agrees_assignment (laws : ExprPairing A E) (h : Inner A E inner) :
    A.Agrees (assignment inner) (assignment inner) E := by
  rw [assignment_eq]
  refine (agrees_binary laws h fun _ => id).bind fun m n htarget =>
    (agrees_accept _).bind fun sign? sign?' hsign => ?_
  cases hsign with
  | none => exact agrees_pure htarget
  | some hsign =>
    exact (agrees_nested h hsign.1.front fun _ hp => hp).bind fun v v' hvalue =>
      agrees_assigned laws htarget hvalue hsign.1.front

/-- `expression` agrees with itself, given how nodes are built, as an `ExprPairing`. -/
theorem agrees_expression (laws : ExprPairing A E) (room : Nat) :
    A.Agrees (expression room) (expression room) E := by
  induction room with
  | zero => exact agrees_assignment laws fun p hp => by cases hp
  | succ room ih => exact agrees_assignment laws fun p hp => Option.some.inj hp ▸ ih

theorem inner_inside (laws : ExprPairing A E) (room : Nat) : Inner A E (inside room) := by
  intro p hp
  obtain ⟨k, rfl, rfl⟩ := inside_eq_some_iff.1 hp
  exact agrees_expression laws k

end

/-! ### Statements -/

/-- `S` passes from the expressions and the blocks of statements to the statements, and `B` holds
between blocks if `S` holds between their statements with one level less of room. -/
structure StmtPairing (A : Alignment) (E : Measured → Measured → Prop)
    (S : Nat → Stmt → Stmt → Prop) (B : Nat → Block → Block → Prop) : Prop where
  expr {room : Nat} {t u : Token} {m n : Measured} : A.Front t u → E m n →
    S room (.expr m.expr t.pos) (.expr n.expr u.pos)
  declare {room : Nat} {t n u k : Token} {init init' : Option Measured} : A.TakenPair t n u k →
    t.isKeyword valueTypes = true → n.tag = .identifier → Option.Rel E init init' →
      S room (.declare (.ofName t.text) n.text (init.map Measured.expr) t.pos)
        (.declare (.ofName u.text) k.text (init'.map Measured.expr) u.pos)
  ifThen {room : Nat} {t u : Token} {c c' : Measured} {b b' : Block} : A.Taken t u → E c c' →
    B room b b' → S room (.ifThen c.expr b t.pos) (.ifThen c'.expr b' u.pos)
  ifElse {room : Nat} {t u : Token} {c c' : Measured} {b a b' a' : Block} : A.Taken t u → E c c' →
    B room b b' → B room a a' → S room (.ifElse c.expr b a t.pos) (.ifElse c'.expr b' a' u.pos)
  loop {room : Nat} {t u : Token} {c c' : Measured} {b b' : Block} : A.Taken t u → E c c' →
    B room b b' → S room (.loop c.expr b t.pos) (.loop c'.expr b' u.pos)
  ret {room : Nat} {t u : Token} {value value' : Option Measured} : A.Taken t u →
    Option.Rel E value value' →
      S room (.ret (value.map Measured.expr) t.pos) (.ret (value'.map Measured.expr) u.pos)
  block {room : Nat} {t u : Token} {ss ss' : List Stmt} : A.Taken t u →
    List.Forall₂ (S room) ss ss' → B (room + 1) (.mk ss t.pos) (.mk ss' u.pos)

section

variable {A : Alignment} {E : Measured → Measured → Prop} {S : Nat → Stmt → Stmt → Prop}
  {B : Nat → Block → Block → Prop}

/-- Expressions that are both there, with `E` between them, or both left out. -/
def Optionally (E : Measured → Measured → Prop) (e? e?' : Option Expr) : Prop :=
  ∃ m? n? : Option Measured, e? = m?.map Measured.expr ∧ e?' = n?.map Measured.expr ∧
    Option.Rel E m? n?

theorem optionally_none : Optionally E none none :=
  ⟨none, none, rfl, rfl, .none⟩

theorem optionally_some {m n : Measured} (h : E m n) : Optionally E (some m.expr) (some n.expr) :=
  ⟨some m, some n, rfl, rfl, .some h⟩

theorem relates_declaration (laws : ExprPairing A E) (stmts : StmtPairing A E S B) (room : Nat)
    {t u : Token} (htype : t.isKeyword valueTypes = true) :
    A.Relates (A.Behind t u) (declaration room t) (declaration room u)
      fun s s' ts us => S room s s' ∧ A.states ts us := by
  refine (relates_expect .identifier _ fun _ _ h => h.after).bind fun n k ts us
    ⟨hbehind, hname, htag⟩ => ?_
  -- the type was the last token before the name
  have hpair : A.TakenPair t n u k := ⟨ts, us, hbehind.before⟩
  have hrest : ∀ init init' : Option Expr, Optionally E init init' →
      A.Agrees
        (do
          let _ ← expect .semicolon (.expected .semicolonAfterDeclaration)
          pure (.declare (.ofName t.text) n.text init t.pos) : Parser Stmt)
        (do
          let _ ← expect .semicolon (.expected .semicolonAfterDeclaration)
          pure (.declare (.ofName u.text) k.text init' u.pos)) (S room) := by
    rintro init init' ⟨m?, n?, rfl, rfl, hrel⟩
    exact (agrees_expect _ _).bind fun _ _ _ => agrees_pure (stmts.declare hpair htype htag hrel)
  refine (agrees_accept _).bind (fun sign? sign?' hsign => ?_) ts us hname.after
  cases hsign with
  | none => exact (agrees_pure optionally_none).bind hrest
  | some _ =>
    exact (agrees_expression laws room).bind fun _ _ he =>
      (agrees_pure (optionally_some he)).bind hrest

theorem agrees_conditional (laws : ExprPairing A E) (stmts : StmtPairing A E S B) (room : Nat)
    {block : Parser Block} (h : A.Agrees block block (B room)) {t u : Token} (ht : A.Taken t u) :
    A.Agrees (conditional room block t) (conditional room block u) (S room) := by
  refine (agrees_expect _ _).bind fun _ _ _ => (agrees_expression laws room).bind fun c c' hcond =>
    (agrees_expect _ _).bind fun _ _ _ => h.bind fun b b' hbody =>
      (agrees_acceptKeyword _).bind fun other? other?' hother => ?_
  cases hother with
  | none => exact agrees_pure (stmts.ifThen ht hcond hbody)
  | some _ => exact h.bind fun _ _ ha => agrees_pure (stmts.ifElse ht hcond hbody ha)

theorem agrees_whileLoop (laws : ExprPairing A E) (stmts : StmtPairing A E S B) (room : Nat)
    {block : Parser Block} (h : A.Agrees block block (B room)) {t u : Token} (ht : A.Taken t u) :
    A.Agrees (whileLoop room block t) (whileLoop room block u) (S room) :=
  (agrees_expect _ _).bind fun _ _ _ => (agrees_expression laws room).bind fun _ _ hcond =>
    (agrees_expect _ _).bind fun _ _ _ => h.bind fun _ _ hbody =>
      agrees_pure (stmts.loop ht hcond hbody)

theorem agrees_returnStatement (laws : ExprPairing A E) (stmts : StmtPairing A E S B) (room : Nat)
    {t u : Token} (ht : A.Taken t u) :
    A.Agrees (returnStatement room t) (returnStatement room u) (S room) := by
  -- what follows the value is the same with and without one
  have hrest : ∀ value value' : Option Expr, Optionally E value value' →
      A.Agrees
        (do
          let _ ← expect .semicolon (.expected .semicolonAfterReturn)
          pure (.ret value t.pos) : Parser Stmt)
        (do
          let _ ← expect .semicolon (.expected .semicolonAfterReturn)
          pure (.ret value' u.pos)) (S room) := by
    rintro value value' ⟨m?, n?, rfl, rfl, hrel⟩
    exact (agrees_expect _ _).bind fun _ _ _ => agrees_pure (stmts.ret ht hrel)
  refine (agrees_check _).bind fun b b' hb => ?_
  subst hb
  cases b with
  | true => exact (agrees_pure optionally_none).bind hrest
  | false =>
    exact (agrees_expression laws room).bind fun _ _ he =>
      (agrees_pure (optionally_some he)).bind hrest

/-- What `statementWith` does behind the keyword `t`. -/
def keywordStatement (room : Nat) (block : Parser Block) (t : Token) : Parser (Option Stmt) :=
  if valueTypes.contains t.text then some <$> declaration room t
  else if t.text == "if" then some <$> conditional room block t
  else if t.text == "while" then some <$> whileLoop room block t
  else if t.text == "return" then some <$> returnStatement room t
  else do
    Pass.write ⟨.unexpectedKeyword t.text, t.pos⟩
    pure none

/-- `statementWith` reads a keyword and what follows it, or an expression. -/
theorem statementWith_eq (room : Nat) (block : Parser Block) :
    statementWith room block = (do
      let t ← peek
      if t.tag == .keyword && !truthWords.contains t.text then do
        skip
        keywordStatement room block t
      else do
        let e ← expression room
        let _ ← expect .semicolon (.expected .semicolonAfterExpression)
        pure (some (.expr e.expr t.pos))) :=
  rfl

theorem relates_keywordStatement (laws : ExprPairing A E) (stmts : StmtPairing A E S B) (room : Nat)
    {block : Parser Block} (h : A.Agrees block block (B room)) {t u : Token}
    (htag : t.tag = .keyword) :
    A.Relates (A.Behind t u) (keywordStatement room block t) (keywordStatement room block u)
      fun s s' ts us => Option.Rel (S room) s s' ∧ A.states ts us := by
  intro ts us hbehind
  have ht : A.Taken t u := hbehind.taken
  have htext : u.text = t.text := ht.front.text_eq.symm
  unfold keywordStatement
  -- the texts are the same, and so are the branches
  rw [htext]
  by_cases htype : valueTypes.contains t.text = true
  · rw [if_pos htype, if_pos htype]
    have hkeyword : t.isKeyword valueTypes = true :=
      isKeyword_eq_true_iff.2 ⟨htag, List.contains_iff_mem.1 htype⟩
    refine Relates.map (relates_declaration laws stmts room hkeyword)
      (fun s s' ts us hs => ?_) ts us hbehind
    exact ⟨.some hs.1, hs.2⟩
  rw [if_neg htype, if_neg htype]
  by_cases hif : (t.text == "if") = true
  · rw [if_pos hif, if_pos hif]
    exact agrees_some (agrees_conditional laws stmts room h ht) ts us hbehind.after
  rw [if_neg hif, if_neg hif]
  by_cases hwhile : (t.text == "while") = true
  · rw [if_pos hwhile, if_pos hwhile]
    exact agrees_some (agrees_whileLoop laws stmts room h ht) ts us hbehind.after
  rw [if_neg hwhile, if_neg hwhile]
  by_cases hreturn : (t.text == "return") = true
  · rw [if_pos hreturn, if_pos hreturn]
    exact agrees_some (agrees_returnStatement laws stmts room ht) ts us hbehind.after
  rw [if_neg hreturn, if_neg hreturn]
  exact (agrees_write (ht.front.entry _)).bind (fun _ _ _ => agrees_pure .none) ts us hbehind.after

theorem agrees_statementWith (laws : ExprPairing A E) (stmts : StmtPairing A E S B) (room : Nat)
    {block : Parser Block} (h : A.Agrees block block (B room)) :
    A.Agrees (statementWith room block) (statementWith room block) (Option.Rel (S room)) := by
  rw [statementWith_eq]
  refine relates_peek.bind fun t u ts us hfacing => ?_
  have hfront : A.Front t u := ⟨ts, us, hfacing⟩
  rw [← hfront.tag_eq, ← hfront.text_eq]
  -- the next tokens have one tag and one text, so both sides take the same branch
  by_cases hkeyword : (t.tag == .keyword && !truthWords.contains t.text) = true
  · rw [if_pos hkeyword, if_pos hkeyword]
    have htag : t.tag = .keyword := by
      simp only [Bool.and_eq_true, beq_iff_eq] at hkeyword
      exact hkeyword.1
    have hend : t.tag ≠ .eof := by simp [htag]
    exact (relates_skip hend).bind (fun _ _ => relates_keywordStatement laws stmts room h htag) ts
      us hfacing
  · rw [if_neg hkeyword, if_neg hkeyword]
    exact (agrees_expression laws room).bind (fun _ _ he => (agrees_expect _ _).bind fun _ _ _ =>
      agrees_pure (.some (stmts.expr hfront he))) ts us hfacing.1

/-! ### Blocks -/

/-- `blockItem` agrees if statements do, also where one was given up. -/
theorem agrees_blockItem {p : Parser (Option Stmt)} {V : Stmt → Stmt → Prop}
    (h : A.Agrees p p (Option.Rel V)) :
    A.Agrees (blockItem p) (blockItem p) (Option.Rel (Option.Rel V)) := by
  refine (agrees_check _).bind fun b b' hb => agrees_atEnd.bind fun e e' he => ?_
  subst hb he
  by_cases hstop : (b || e) = true
  · rw [if_pos hstop]
    exact agrees_pure .none
  · rw [if_neg hstop]
    exact agrees_some (agrees_recovering h)

/-- What was found compares one by one, and was given up together. -/
theorem forall₂_filterMap {α : Type} {V : α → α → Prop} {found found' : List (Option α)}
    (h : List.Forall₂ (Option.Rel V) found found') :
    List.Forall₂ V (found.filterMap id) (found'.filterMap id) := by
  induction h with
  | nil => exact .nil
  | cons hab _ ih =>
    cases hab with
    | none => exact ih
    | some hab => exact .cons hab ih

/-- Where there is no room, `block` is refused on both sides. -/
theorem agrees_block_zero {V : Block → Block → Prop} : A.Agrees (block 0) (block 0) V := by
  refine (agrees_expect _ _).bind fun brace brace' hbrace => ?_
  -- there is no room for the block, and both runs fail at its brace
  have hnested : A.Agrees
      (nested .block (within 0) brace fun statement => many (blockItem statement))
      (nested .block (within 0) brace' fun statement => many (blockItem statement))
        fun _ _ => False :=
    agrees_failAt hbrace.front _
  exact hnested.bind fun _ _ hfalse => hfalse.elim

theorem agrees_block_succ (stmts : StmtPairing A E S B) {room : Nat}
    (h : A.Agrees (statement room) (statement room) (Option.Rel (S room))) :
    A.Agrees (block (room + 1)) (block (room + 1)) (B (room + 1)) := by
  refine (agrees_expect _ _).bind fun brace brace' hbrace => ?_
  have hinner : Inner A (Option.Rel (S room)) (within (room + 1)) :=
    fun p hp => Option.some.inj hp ▸ h
  refine (agrees_nested hinner hbrace.front fun _ hp => agrees_many (agrees_blockItem hp)).bind
    fun found found' hfound => (agrees_expect _ _).bind fun _ _ _ => ?_
  exact agrees_pure (stmts.block hbrace (forall₂_filterMap hfound))

theorem agrees_statement (laws : ExprPairing A E) (stmts : StmtPairing A E S B) (room : Nat) :
    A.Agrees (statement room) (statement room) (Option.Rel (S room)) := by
  induction room with
  | zero => exact agrees_statementWith laws stmts 0 agrees_block_zero
  | succ room ih => exact agrees_statementWith laws stmts (room + 1) (agrees_block_succ stmts ih)

theorem agrees_block (laws : ExprPairing A E) (stmts : StmtPairing A E S B) (room : Nat) :
    A.Agrees (block room) (block room) (B room) := by
  cases room with
  | zero => exact agrees_block_zero
  | succ room => exact agrees_block_succ stmts (agrees_statement laws stmts room)

end

/-! ### Functions and programs -/

/-- `P` holds between the parameters that aligned tokens declare, and `F` passes from the parameters
and the bodies of functions to the functions. -/
structure FunctionPairing (A : Alignment) (B : Block → Block → Prop) (P : Param → Param → Prop)
    (F : Function → Function → Prop) : Prop where
  param {t n u k : Token} : A.TakenPair t n u k → t.isKeyword valueTypes = true →
    n.tag = .identifier → P ⟨.ofName t.text, n.text, t.pos⟩ ⟨.ofName u.text, k.text, u.pos⟩
  function {t n u k : Token} {params params' : List Param} {b b' : Block} : A.TakenPair t n u k →
    t.isKeyword returnTypes = true → n.tag = .identifier → List.Forall₂ P params params' → B b b' →
      F ⟨.ofName t.text, n.text, params, b, t.pos⟩ ⟨.ofName u.text, k.text, params', b', u.pos⟩

section

variable {A : Alignment} {E : Measured → Measured → Prop} {S : Nat → Stmt → Stmt → Prop}
  {B : Nat → Block → Block → Prop} {P : Param → Param → Prop} {F : Function → Function → Prop}

/-- A word for a type and a name behind it. -/
theorem relates_typed {words : List String} (cause cause' : GrammarCause) {α : Type}
    {V : α → α → Prop} {further : Token → Token → Parser α}
    (h : ∀ t n u k, A.TakenPair t n u k → t.isKeyword words = true → n.tag = .identifier →
      A.Agrees (further t n) (further u k) V) :
    A.Agrees
      (do
        let type ← expectKeyword words cause
        let name ← expect .identifier cause'
        further type name)
      (do
        let type ← expectKeyword words cause
        let name ← expect .identifier cause'
        further type name) V := by
  refine (relates_expectKeyword words cause fun _ _ => id).bind fun t u => ?_
  refine (relates_expect .identifier cause' fun _ _ hpre => hpre.2.1.after).bind
    fun n k ts us hts => ?_
  obtain ⟨⟨hbefore, -, hkeyword⟩, hname, htag⟩ := hts
  exact h t n u k ⟨ts, us, hbefore⟩ hkeyword htag ts us hname.after

theorem agrees_parameter {V : Block → Block → Prop} (functions : FunctionPairing A V P F) :
    A.Agrees parameter parameter P :=
  relates_typed _ _ fun _ _ _ _ hpair hkeyword htag =>
    agrees_pure (functions.param hpair hkeyword htag)

theorem agrees_function (laws : ExprPairing A E) (stmts : StmtPairing A E S B) (room : Nat)
    (functions : FunctionPairing A (B room) P F) : A.Agrees (function room) (function room) F :=
  relates_typed _ _ fun _ _ _ _ hpair hkeyword htag => (agrees_expect _ _).bind fun _ _ _ =>
    (agrees_listed (agrees_parameter functions)).bind fun _ _ hparams =>
      (agrees_expect _ _).bind fun _ _ _ => (agrees_block laws stmts room).bind fun _ _ hbody =>
        agrees_pure (functions.function hpair hkeyword htag hparams hbody)

theorem agrees_programItem (laws : ExprPairing A E) (stmts : StmtPairing A E S B) (room : Nat)
    (functions : FunctionPairing A (B room) P F) :
    A.Agrees (programItem room) (programItem room) (Option.Rel (Option.Rel F)) := by
  refine agrees_atEnd.bind fun b b' hb => ?_
  subst hb
  cases b with
  | true => exact agrees_pure .none
  | false =>
    exact agrees_some (agrees_recovering (agrees_some (agrees_function laws stmts room functions)))

/-- The functions that `parse` finds in aligned lists compare one by one, and so do its findings. -/
theorem parse_aligned (laws : ExprPairing A E) (stmts : StmtPairing A E S B)
    (functions : FunctionPairing A (B maxNesting) P F) {ts us : List Token} (h : A.states ts us) :
    List.Forall₂ F (parse ts).1.functions (parse us).1.functions ∧
      List.Forall₂ A.entries (parse ts).2 (parse us).2 := by
  have hprogram : A.Agrees (program maxNesting) (program maxNesting)
      fun p q => List.Forall₂ F p.functions q.functions :=
    agrees_peek.bind fun _ _ _ => (agrees_many (agrees_programItem laws stmts _ functions)).bind
      fun _ _ hfound => agrees_pure (forall₂_filterMap hfound)
  have hends := hprogram ts us h
  unfold parse
  -- a program cannot fail, so both runs have succeeded
  generalize program maxNesting ts = r at hends ⊢
  generalize program maxNesting us = r' at hends ⊢
  cases hends with
  | ok logs values => exact ⟨values.1, logs⟩
  | error _ _ => contradiction

end

end Parser

end Tricode
