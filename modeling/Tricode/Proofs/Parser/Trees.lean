import Tricode.Proofs.Parser.Correspondence

/-!
# What the trees of the parser have in common

What the parser keeps while it reads one list is a comparison of the list with itself
(`Keeping.alignment`). So a property that passes from the parts of an expression to the expression
(`ExprRules`), and from there to statements and blocks (`StmtRules`) and to functions
(`FunctionRules`), is a property of all functions that the parser gives (`functions_parse`),
whatever the tokens are and however often it had to recover.

Statements and blocks have their property at the room that was left for nesting where they stand.
-/

namespace Tricode

namespace Parser

open Pass Pass.Pairing

variable {α : Type}

/-! ### One list -/

/-- A property of the tokens that are left, which is kept when a token is taken, and a property of
the findings at the next token. -/
structure Keeping where
  tokens : List Token → Prop
  findings : Finding GrammarCause → Prop
  tail {ts : List Token} : tokens ts → (next ts).tag ≠ .eof → tokens ts.tail
  entry {ts : List Token} (cause : GrammarCause) : tokens ts → findings ⟨cause, (next ts).pos⟩

namespace Keeping

/-- The list compared with itself. -/
def alignment (K : Keeping) : Alignment where
  states ts us := ts = us ∧ K.tokens ts
  entries f g := f = g ∧ K.findings f
  length_eq h := by rw [h.1]
  tag_eq h := by rw [h.1]
  text_eq h := by rw [h.1]
  tail h hend := ⟨by rw [h.1], K.tail h.2 hend⟩
  entry cause h := ⟨by rw [h.1], K.entry cause h.2⟩

/-- All tokens that are left have `T`, and nothing is asked of the findings. -/
def all (T : Token → Prop) : Keeping where
  tokens ts := ∀ t ∈ ts, T t
  findings _ := True
  tail h _ := fun t ht => h t (List.mem_of_mem_tail ht)
  entry _ _ := trivial

/-- A list that is kept begins with the token. -/
def Begins (K : Keeping) (t : Token) : Prop :=
  ∃ ts, K.tokens (t :: ts)

/-- A list that is kept begins with these two tokens. -/
def BeginsPair (K : Keeping) (t n : Token) : Prop :=
  ∃ ts, K.tokens (t :: n :: ts)

variable {K : Keeping} {t n u k : Token}

/-- In a list whose tokens all have `T`, a token may begin if it has `T`. -/
theorem begins_all {T : Token → Prop} : (all T).Begins t ↔ T t := by
  constructor
  · rintro ⟨ts, h⟩
    exact h t List.mem_cons_self
  · intro ht
    exact ⟨[], List.forall_mem_singleton.2 ht⟩

/-- Tokens `Taken` from one list on both sides are the same. -/
theorem taken_iff : K.alignment.Taken t u ↔ t = u ∧ K.Begins t := by
  constructor
  · rintro ⟨ts, us, heq, h⟩
    exact ⟨(List.cons.inj heq).1, ts, h⟩
  · rintro ⟨rfl, ts, h⟩
    exact ⟨ts, ts, rfl, h⟩

/-- A `TakenPair` from one list on both sides is one pair. -/
theorem takenPair_iff : K.alignment.TakenPair t n u k ↔ t = u ∧ n = k ∧ K.BeginsPair t n := by
  constructor
  · rintro ⟨ts, us, heq, h⟩
    obtain ⟨ht, heq⟩ := List.cons.inj heq
    exact ⟨ht, (List.cons.inj heq).1, ts, h⟩
  · rintro ⟨rfl, rfl, ts, h⟩
    exact ⟨ts, ts, rfl, h⟩

/-- Tokens that are next in one list on both sides, in `Front`, are the same. -/
theorem front_iff : K.alignment.Front t u ↔ t = u ∧ ∃ ts, K.tokens ts ∧ next ts = t := by
  constructor
  · rintro ⟨ts, us, ⟨rfl, h⟩, rfl, rfl⟩
    exact ⟨rfl, ts, h, rfl⟩
  · rintro ⟨rfl, ts, h, rfl⟩
    exact ⟨ts, ts, ⟨rfl, h⟩, rfl, rfl⟩

end Keeping

/-- The same thing twice, with `P`. -/
def Same (P : α → Prop) (a b : α) : Prop :=
  a = b ∧ P a

/-- Values that are the `Same` one by one are one list. -/
theorem forall₂_same_iff {P : α → Prop} {as bs : List α} :
    List.Forall₂ (Same P) as bs ↔ as = bs ∧ ∀ a ∈ as, P a := by
  constructor
  · intro h
    induction h with
    | nil => exact ⟨rfl, by simp⟩
    | cons hab _ ih => exact ⟨by rw [hab.1, ih.1], List.forall_mem_cons.2 ⟨hab.2, ih.2⟩⟩
  · rintro ⟨rfl, h⟩
    induction as with
    | nil => exact .nil
    | cons a as ih =>
      obtain ⟨ha, has⟩ := List.forall_mem_cons.1 h
      exact .cons ⟨rfl, ha⟩ (ih has)

/-- Values that are the `Same`, if they are there, are one. -/
theorem eq_of_optionRel {P : α → Prop} {a? b? : Option α} (h : Option.Rel (Same P) a? b?) :
    a? = b? ∧ ∀ a ∈ a?, P a := by
  cases h with
  | none => exact ⟨rfl, by simp⟩
  | some h => exact ⟨by rw [h.1], by simpa using h.2⟩

/-- What a pass gives from a list that is kept, if it `Agrees` with itself. -/
theorem holds_of_agrees {K : Keeping} {p : Parser α} {P : α → Prop}
    (h : K.alignment.Agrees p p (Same P)) {ts : List Token} (hts : K.tokens ts) {a : α}
    (ha : (p ts).value = .ok a) : P a := by
  have hends := h ts ts ⟨rfl, hts⟩
  generalize p ts = r at hends ha
  cases hends with
  | ok _ values =>
    obtain rfl := Except.ok.inj ha
    exact values.1.2
  | error _ _ => cases ha

/-! ### Expressions -/

/-- `E` holds of what stands by itself, and passes from the parts of an expression that is not too
deep to the expression. -/
structure ExprRules (K : Keeping) (E : Measured → Prop) : Prop where
  literal {t : Token} (kind : LiteralKind) : K.Begins t → t.Denotes kind →
    E (leaf (.literal kind t.text t.pos))
  ident {t : Token} : K.Begins t → t.tag = .identifier → E (leaf (.ident t.text t.pos))
  unary {op : Token} {operand : Measured} : K.Begins op → op.tag ∈ [.logicalNot, .minus] →
    E operand → operand.depth < maxDepth → E ⟨.unary op.text operand.expr op.pos, operand.depth + 1⟩
  binary {ops : List Tag} {op : Token} {left right : Measured} : ops ∈ levels → K.Begins op →
    op.tag ∈ ops → E left → E right → max left.depth right.depth < maxDepth →
      E ⟨.binary op.text left.expr right.expr op.pos, max left.depth right.depth + 1⟩
  call {callee : Measured} {args : List Measured} : E callee → (∀ arg ∈ args, E arg) →
    args.foldl (fun d arg => max d arg.depth) callee.depth < maxDepth →
      E ⟨.call callee.expr (args.map Measured.expr) callee.expr.pos,
        args.foldl (fun d arg => max d arg.depth) callee.depth + 1⟩
  assign {target value : Measured} {x : String} {pos : Pos} : E target →
    target.expr.name? = some (x, pos) → E value → value.depth < maxDepth →
      E ⟨.assign x value.expr pos, value.depth + 1⟩

theorem exprRules_any (K : Keeping) : ExprRules K fun _ => True := by
  constructor <;> intros <;> trivial

/-- `ExprRules`, for one tree, are rules for two that are the same. -/
theorem ExprRules.pairing {K : Keeping} {E : Measured → Prop} (rules : ExprRules K E) :
    ExprPairing K.alignment (Same E) where
  depth_eq h := by rw [h.1]
  named := by
    rintro m n ⟨rfl, -⟩
    cases m.expr.name? with
    | none => exact .none
    | some _ => exact .some trivial
  literal kind h hkind := by
    obtain ⟨rfl, ht⟩ := Keeping.taken_iff.1 h
    exact ⟨rfl, rules.literal kind ht hkind⟩
  ident h htag := by
    obtain ⟨rfl, ht⟩ := Keeping.taken_iff.1 h
    exact ⟨rfl, rules.ident ht htag⟩
  unary := by
    rintro t u m n h htag ⟨rfl, hm⟩ hdepth
    obtain ⟨rfl, ht⟩ := Keeping.taken_iff.1 h
    exact ⟨rfl, rules.unary ht htag hm hdepth⟩
  binary := by
    rintro ops t u l r l' r' hops h htag ⟨rfl, hl⟩ ⟨rfl, hr⟩ hdepth
    obtain ⟨rfl, ht⟩ := Keeping.taken_iff.1 h
    exact ⟨rfl, rules.binary hops ht htag hl hr hdepth⟩
  call := by
    rintro f g args args' ⟨rfl, hf⟩ h hdepth
    obtain ⟨rfl, hargs⟩ := forall₂_same_iff.1 h
    exact ⟨rfl, rules.call hf hargs hdepth⟩
  assign := by
    rintro m n v v' x y p q ⟨rfl, hm⟩ hx hy ⟨rfl, hv⟩ hdepth
    obtain ⟨rfl, rfl⟩ := Prod.mk.inj (Option.some.inj (hx.symm.trans hy))
    exact ⟨rfl, rules.assign hm hx hv hdepth⟩

/-! ### Statements -/

/-- `S` passes from the expressions and the blocks of a statement to the statement, and `B` holds of
a block if `S` holds of its statements with one level less of room. -/
structure StmtRules (K : Keeping) (E : Measured → Prop) (S : Nat → Stmt → Prop)
    (B : Nat → Block → Prop) : Prop where
  expr {room : Nat} {m : Measured} {ts : List Token} : K.tokens ts → E m →
    S room (.expr m.expr (next ts).pos)
  declare {room : Nat} {t n : Token} {init : Option Measured} : K.BeginsPair t n →
    t.isKeyword valueTypes = true → n.tag = .identifier → (∀ m ∈ init, E m) →
      S room (.declare (.ofName t.text) n.text (init.map Measured.expr) t.pos)
  ifThen {room : Nat} {t : Token} {cond : Measured} {body : Block} : K.Begins t → E cond →
    B room body → S room (.ifThen cond.expr body t.pos)
  ifElse {room : Nat} {t : Token} {cond : Measured} {body alternative : Block} :
    K.Begins t → E cond →
    B room body → B room alternative → S room (.ifElse cond.expr body alternative t.pos)
  loop {room : Nat} {t : Token} {cond : Measured} {body : Block} : K.Begins t → E cond →
    B room body → S room (.loop cond.expr body t.pos)
  ret {room : Nat} {t : Token} {value : Option Measured} : K.Begins t → (∀ m ∈ value, E m) →
    S room (.ret (value.map Measured.expr) t.pos)
  block {room : Nat} {t : Token} {ss : List Stmt} : K.Begins t → (∀ s ∈ ss, S room s) →
    B (room + 1) (.mk ss t.pos)

/-- `StmtRules`, for one statement, are rules for two that are the same. -/
theorem StmtRules.pairing {K : Keeping} {E : Measured → Prop} {S : Nat → Stmt → Prop}
    {B : Nat → Block → Prop} (rules : StmtRules K E S B) :
    StmtPairing K.alignment (Same E) (fun room => Same (S room)) (fun room => Same (B room)) where
  expr := by
    rintro room t u m n h ⟨rfl, hm⟩
    obtain ⟨rfl, ts, hts, rfl⟩ := Keeping.front_iff.1 h
    exact ⟨rfl, rules.expr hts hm⟩
  declare h hkeyword htag hrel := by
    obtain ⟨rfl, rfl, hpair⟩ := Keeping.takenPair_iff.1 h
    obtain ⟨rfl, hinit⟩ := eq_of_optionRel hrel
    exact ⟨rfl, rules.declare hpair hkeyword htag hinit⟩
  ifThen := by
    rintro room t u c c' b b' h ⟨rfl, hc⟩ ⟨rfl, hb⟩
    obtain ⟨rfl, ht⟩ := Keeping.taken_iff.1 h
    exact ⟨rfl, rules.ifThen ht hc hb⟩
  ifElse := by
    rintro room t u c c' b a b' a' h ⟨rfl, hc⟩ ⟨rfl, hb⟩ ⟨rfl, ha⟩
    obtain ⟨rfl, ht⟩ := Keeping.taken_iff.1 h
    exact ⟨rfl, rules.ifElse ht hc hb ha⟩
  loop := by
    rintro room t u c c' b b' h ⟨rfl, hc⟩ ⟨rfl, hb⟩
    obtain ⟨rfl, ht⟩ := Keeping.taken_iff.1 h
    exact ⟨rfl, rules.loop ht hc hb⟩
  ret h hrel := by
    obtain ⟨rfl, ht⟩ := Keeping.taken_iff.1 h
    obtain ⟨rfl, hvalue⟩ := eq_of_optionRel hrel
    exact ⟨rfl, rules.ret ht hvalue⟩
  block h hrel := by
    obtain ⟨rfl, ht⟩ := Keeping.taken_iff.1 h
    obtain ⟨rfl, hss⟩ := forall₂_same_iff.1 hrel
    exact ⟨rfl, rules.block ht hss⟩

/-! ### Functions -/

/-- `P` holds of a parameter, and `F` passes from the parameters and the body of a function to the
function. -/
structure FunctionRules (K : Keeping) (B : Block → Prop) (P : Param → Prop) (F : Function → Prop) :
    Prop where
  param {t n : Token} : K.BeginsPair t n → t.isKeyword valueTypes = true → n.tag = .identifier →
    P ⟨.ofName t.text, n.text, t.pos⟩
  function {t n : Token} {params : List Param} {body : Block} : K.BeginsPair t n →
    t.isKeyword returnTypes = true → n.tag = .identifier → (∀ p ∈ params, P p) → B body →
      F ⟨.ofName t.text, n.text, params, body, t.pos⟩

/-- `FunctionRules`, for one function, are rules for two that are the same. -/
theorem FunctionRules.pairing {K : Keeping} {B : Block → Prop} {P : Param → Prop}
    {F : Function → Prop}
    (rules : FunctionRules K B P F) : FunctionPairing K.alignment (Same B) (Same P) (Same F) where
  param h hkeyword htag := by
    obtain ⟨rfl, rfl, hpair⟩ := Keeping.takenPair_iff.1 h
    exact ⟨rfl, rules.param hpair hkeyword htag⟩
  function := by
    rintro t n u k params params' b b' h hkeyword htag hrel ⟨rfl, hb⟩
    obtain ⟨rfl, rfl, hpair⟩ := Keeping.takenPair_iff.1 h
    obtain ⟨rfl, hparams⟩ := forall₂_same_iff.1 hrel
    exact ⟨rfl, rules.function hpair hkeyword htag hparams hb⟩

section

variable {K : Keeping} {E : Measured → Prop} {S : Nat → Stmt → Prop} {B : Nat → Block → Prop}
  {P : Param → Prop} {F : Function → Prop} {ts : List Token}

/-- The functions that `parse` finds have what the rules for building trees keep. -/
theorem functions_parse (exprs : ExprRules K E) (stmts : StmtRules K E S B)
    (functions : FunctionRules K (B maxNesting) P F) (hts : K.tokens ts) :
    ∀ f ∈ (parse ts).1.functions, F f :=
  (forall₂_same_iff.1
    (parse_aligned exprs.pairing stmts.pairing functions.pairing ⟨rfl, hts⟩).1).2

/-- The findings of `parse` are at tokens that were next in lists that are kept. -/
theorem findings_parse (exprs : ExprRules K E) (stmts : StmtRules K E S B)
    (functions : FunctionRules K (B maxNesting) P F) (hts : K.tokens ts) :
    ∀ f ∈ (parse ts).2, K.findings f :=
  (forall₂_same_iff.1
    (parse_aligned exprs.pairing stmts.pairing functions.pairing ⟨rfl, hts⟩).2).2

end

end Parser

end Tricode
