import Mathlib.Data.List.Nodup
import Tricode.Proofs.Compilation
import Tricode.Proofs.Lowering.Faults
import Tricode.Proofs.Typing.Acceptance

/-!
# Where calls without a value stand

A function without a result gives no value back, so a call of it has none. `Function.uses` lists all
expressions of a function, each with what it is used as by what stands directly around it. In a
program in which nothing is found wrong, a call without a value is a statement of its own, or it is
given back by a function without a result, or it is compared for equality with another call without
a value (`void_call_uses`).

The last case is there because values of one type can be compared, whatever the type is. It is why
"a call without a value is never an operand" does not hold (`void_operand_comparing`).
-/

namespace Tricode

/-! ### Uses -/

/-- What an expression is used as by what stands directly around it. -/
inductive Use where
  | statement
  | returned
  | condition
  | initial
  | assigned
  | argument
  | callee
  /-- An operand of an operator. If the operator has two operands, `other` is the other one. -/
  | operand (op : String) (other : Option Expr)

namespace Expr

mutual

/-- The expression, used as given, and all expressions inside it with their uses. -/
def usesAs : Expr → Use → List (Use × Expr)
  | literal kind text pos, use => [(use, literal kind text pos)]
  | ident x pos, use => [(use, ident x pos)]
  | unary op e pos, use => (use, unary op e pos) :: e.usesAs (.operand op none)
  | binary op l r pos, use =>
    (use, binary op l r pos) :: (l.usesAs (.operand op (some r)) ++ r.usesAs (.operand op (some l)))
  | call f args pos, use => (use, call f args pos) :: (f.usesAs .callee ++ usesOfArgs args)
  | assign x e pos, use => (use, assign x e pos) :: e.usesAs .assigned

/-- The arguments of a call and all expressions inside them, with their uses. -/
def usesOfArgs : List Expr → List (Use × Expr)
  | [] => []
  | e :: es => e.usesAs .argument ++ usesOfArgs es

end

mutual

/-- In `usesAs`, no occurrence of an expression inside an expression is without a use. -/
theorem map_snd_usesAs : ∀ (e : Expr) (use : Use), (e.usesAs use).map Prod.snd = e.subterms
  | literal .., _ => rfl
  | ident .., _ => rfl
  | unary op e pos, use => by rw [usesAs, List.map_cons, e.map_snd_usesAs, subterms]
  | binary op l r pos, use => by
    rw [usesAs, List.map_cons, List.map_append, l.map_snd_usesAs, r.map_snd_usesAs, subterms]
  | call f args pos, use => by
    rw [usesAs, List.map_cons, List.map_append, f.map_snd_usesAs, map_snd_usesOfArgs args, subterms]
  | assign x e pos, use => by rw [usesAs, List.map_cons, e.map_snd_usesAs, subterms]

theorem map_snd_usesOfArgs : ∀ es : List Expr, (usesOfArgs es).map Prod.snd = subtermsAll es
  | [] => rfl
  | e :: es => by
    rw [usesOfArgs, List.map_append, e.map_snd_usesAs, map_snd_usesOfArgs es, subtermsAll]

end

end Expr

mutual

/-- All expressions in a statement with their uses. -/
def Stmt.uses : Stmt → List (Use × Expr)
  | .expr e _ => e.usesAs .statement
  | .declare _ _ init _ => init.toList.flatMap fun e => e.usesAs .initial
  | .ifThen c b _ => c.usesAs .condition ++ b.uses
  | .ifElse c b a _ => c.usesAs .condition ++ (b.uses ++ a.uses)
  | .loop c b _ => c.usesAs .condition ++ b.uses
  | .ret value _ => value.toList.flatMap fun e => e.usesAs .returned

/-- All expressions in a block with their uses. -/
def Block.uses : Block → List (Use × Expr)
  | .mk ss _ => Stmt.usesAll ss

/-- All expressions in statements with their uses. -/
def Stmt.usesAll : List Stmt → List (Use × Expr)
  | [] => []
  | s :: ss => s.uses ++ Stmt.usesAll ss

end

/-- All expressions in a function with their uses. -/
def Function.uses (f : Function) : List (Use × Expr) :=
  f.body.uses

theorem map_snd_flatMap_usesAs (e? : Option Expr) (use : Use) :
    (e?.toList.flatMap fun e => e.usesAs use).map Prod.snd = e?.toList.flatMap Expr.subterms := by
  cases e? with
  | none => rfl
  | some e =>
    rw [Option.toList_some, List.flatMap_singleton, List.flatMap_singleton, e.map_snd_usesAs]

mutual

/-- In `uses`, no occurrence of an expression in a statement is without a use. -/
theorem Stmt.map_snd_uses : ∀ s : Stmt, s.uses.map Prod.snd = s.exprs.flatMap Expr.subterms
  | .expr e _ => by
    rw [Stmt.uses, Stmt.exprs, List.flatMap_singleton, e.map_snd_usesAs]
  | .declare _ _ init _ => map_snd_flatMap_usesAs init .initial
  | .ifThen c b _ => by
    rw [Stmt.uses, Stmt.exprs, List.map_append, c.map_snd_usesAs, b.map_snd_uses, List.flatMap_cons]
  | .ifElse c b a _ => by
    rw [Stmt.uses, Stmt.exprs, List.map_append, List.map_append, c.map_snd_usesAs, b.map_snd_uses,
      a.map_snd_uses, List.flatMap_cons, List.flatMap_append]
  | .loop c b _ => by
    rw [Stmt.uses, Stmt.exprs, List.map_append, c.map_snd_usesAs, b.map_snd_uses, List.flatMap_cons]
  | .ret value _ => map_snd_flatMap_usesAs value .returned

theorem Block.map_snd_uses : ∀ b : Block, b.uses.map Prod.snd = b.exprs.flatMap Expr.subterms
  | .mk ss _ => Stmt.map_snd_usesAll ss

theorem Stmt.map_snd_usesAll : ∀ ss : List Stmt,
    (Stmt.usesAll ss).map Prod.snd = (Stmt.exprsAll ss).flatMap Expr.subterms
  | [] => rfl
  | s :: ss => by
    rw [Stmt.usesAll, Stmt.exprsAll, List.map_append, s.map_snd_uses, Stmt.map_snd_usesAll ss,
      List.flatMap_append]

end

/-! ### Calls without a value -/

/-- The name of the function that an expression calls. -/
def Expr.called? : Expr → Option String
  | call (ident x _) _ _ => some x
  | _ => none

/-- The expression calls one of the functions `fs`, and that function has no result. -/
def Expr.CallsVoid (fs : List Function) (e : Expr) : Prop :=
  ∃ f ∈ fs, f.result = .void ∧ e.called? = some f.name

/-- The use, in a function with the given result, needs no value. -/
def Use.NeedsNoValue (result : Ty) : Use → Prop
  | statement => True
  | returned => result = .void
  | _ => False

/-- The expression is compared for equality with a call without a value. -/
def Use.ComparedWithVoid (fs : List Function) : Use → Prop
  | operand op (some other) => op ∈ ["==", "!="] ∧ other.CallsVoid fs
  | _ => False

/-- A call without a value may be used like this, in a function with the given result. -/
def Use.TakesVoid (fs : List Function) (result : Ty) (use : Use) : Prop :=
  use.NeedsNoValue result ∨ use.ComparedWithVoid fs

instance (fs : List Function) (e : Expr) : Decidable (e.CallsVoid fs) :=
  inferInstanceAs (Decidable (∃ f ∈ fs, f.result = .void ∧ e.called? = some f.name))

instance (result : Ty) : DecidablePred (Use.NeedsNoValue result)
  | .statement => .isTrue trivial
  | .returned => inferInstanceAs (Decidable (result = .void))
  | .condition | .initial | .assigned | .argument | .callee | .operand .. => .isFalse id

/-! ### Types -/

theorem Ty.bool_ne_void : Ty.bool ≠ .void := by
  decide

theorem Numeric.ne_void {t : Ty} (h : Numeric t) : t ≠ .void := by
  cases h <;> decide

theorem Ty.ne_void_of_mem_values {t : Ty} (h : t ∈ Ty.values) : t ≠ .void := by
  rintro rfl
  revert h
  decide

/-- What fits a value is a value. -/
theorem Fits.ne_void {wanted actual : Ty} (h : Fits wanted actual) (hwanted : wanted ∈ Ty.values) :
    actual ≠ .void := by
  cases h with
  | same => exact Ty.ne_void_of_mem_values hwanted
  | widened => decide

theorem Fits.forall_ne_void {wanted actual : List Ty} (h : List.Forall₂ Fits wanted actual)
    (hwanted : ∀ t ∈ wanted, t ∈ Ty.values) : ∀ u ∈ actual, u ≠ .void := by
  induction h with
  | nil => simp
  | cons hfits _ ih =>
    obtain ⟨hhead, htail⟩ := List.forall_mem_cons.1 hwanted
    exact List.forall_mem_cons.2 ⟨hfits.ne_void hhead, ih htail⟩

/-- Calls without a value are compared with each other only. -/
theorem Comparable.eq_void {t u : Ty} (h : Comparable t u) : t = .void ↔ u = .void := by
  cases h <;> simp

/-- The functions `reach`, which may be called, are among the functions `fs` of a program, whose
names differ; parameters of functions and the variables `vars` have values. -/
structure Valued (fs reach : List Function) (vars : List (String × Ty)) : Prop where
  distinct : (fs.map Function.name).Nodup
  sub : ∀ f ∈ reach, f ∈ fs
  params : ∀ f ∈ fs, ∀ t ∈ f.params.map Param.type, t ∈ Ty.values
  vars : ∀ v ∈ vars, v.2 ∈ Ty.values

section

variable {fs reach : List Function} {vars : List (String × Ty)} {result : Ty}

theorem Valued.append (h : Valued fs reach vars) {more : List (String × Ty)}
    (hmore : ∀ v ∈ more, v.2 ∈ Ty.values) : Valued fs reach (vars ++ more) :=
  { h with vars := List.forall_mem_append.2 ⟨h.vars, hmore⟩ }

/-- A call without a value, `CallsVoid`, has no value. -/
theorem HasType.eq_void_of_callsVoid (hvalued : Valued fs reach vars) {e : Expr} {t : Ty}
    (h : HasType reach vars e t) (hcalls : e.CallsVoid fs) : t = .void := by
  obtain ⟨g, hg, hresult, hcalled⟩ := hcalls
  cases h with
  | @call f _ _ _ _ hf =>
    have hname : f.name = g.name := Option.some.inj hcalled
    rw [List.inj_on_of_nodup_map hvalued.distinct (hvalued.sub f hf) hg hname]
    exact hresult
  | _ => cases hcalled

/-- Only a `CallsVoid` has no value. -/
theorem HasType.callsVoid (hvalued : Valued fs reach vars) {e : Expr}
    (h : HasType reach vars e .void) :
    e.CallsVoid fs := by
  generalize ht : Ty.void = t at h
  cases h with
  | var hx | assign hx => exact absurd ht.symm (Ty.ne_void_of_mem_values (hvalued.vars _ hx))
  | minus _ hnumeric => exact absurd ht.symm hnumeric.ne_void
  | arithmetic => split at ht <;> cases ht
  | call hf => exact ⟨_, hvalued.sub _ hf, ht.symm, rfl⟩
  | _ => cases ht

mutual

/-- If the use of an expression takes no value where the expression has none, so do the uses of what
is inside the expression. -/
theorem HasType.takesVoid_usesAs (hvalued : Valued fs reach vars) :
    ∀ (e : Expr) {t : Ty} {use : Use}, HasType reach vars e t →
      (t = .void → use.TakesVoid fs result) →
      ∀ u ∈ e.usesAs use, u.2.CallsVoid fs → u.1.TakesVoid fs result
  | .literal .., t, use, h, huse => by
    rw [Expr.usesAs, List.forall_mem_singleton]
    exact fun hcalls => huse (h.eq_void_of_callsVoid hvalued hcalls)
  | .ident .., t, use, h, huse => by
    rw [Expr.usesAs, List.forall_mem_singleton]
    exact fun hcalls => huse (h.eq_void_of_callsVoid hvalued hcalls)
  | .unary op e pos, t, use, h, huse => by
    rw [Expr.usesAs, List.forall_mem_cons]
    refine ⟨fun hcalls => huse (h.eq_void_of_callsVoid hvalued hcalls), ?_⟩
    cases h with
    | minus operand ht =>
      exact operand.takesVoid_usesAs hvalued e fun hvoid => absurd hvoid ht.ne_void
    | not operand =>
      exact operand.takesVoid_usesAs hvalued e fun hvoid => absurd hvoid Ty.bool_ne_void
  | .binary op l r pos, t, use, h, huse => by
    rw [Expr.usesAs, List.forall_mem_cons, List.forall_mem_append]
    refine ⟨fun hcalls => huse (h.eq_void_of_callsVoid hvalued hcalls), ?_⟩
    cases h with
    | arithmetic _ left right ht hu | order _ left right ht hu =>
      exact ⟨left.takesVoid_usesAs hvalued l fun hvoid => absurd hvoid ht.ne_void,
        right.takesVoid_usesAs hvalued r fun hvoid => absurd hvoid hu.ne_void⟩
    -- one side has no value only if the other has none either, and then it is a call
    | equality hop left right htu =>
      constructor
      · refine left.takesVoid_usesAs hvalued l fun hvoid => .inr ⟨hop, ?_⟩
        exact HasType.callsVoid hvalued (htu.eq_void.1 hvoid ▸ right)
      · refine right.takesVoid_usesAs hvalued r fun hvoid => .inr ⟨hop, ?_⟩
        exact HasType.callsVoid hvalued (htu.eq_void.2 hvoid ▸ left)
    | logical _ left right =>
      exact ⟨left.takesVoid_usesAs hvalued l fun hvoid => absurd hvoid Ty.bool_ne_void,
        right.takesVoid_usesAs hvalued r fun hvoid => absurd hvoid Ty.bool_ne_void⟩
  | .call f args pos, t, use, h, huse => by
    rw [Expr.usesAs, List.forall_mem_cons, List.forall_mem_append]
    refine ⟨fun hcalls => huse (h.eq_void_of_callsVoid hvalued hcalls), ?_⟩
    cases h with
    | call hf _ arguments hfits =>
      constructor
      · -- what is called is a name, and a name calls nothing
        rw [Expr.usesAs, List.forall_mem_singleton]
        rintro ⟨_, _, _, hcalled⟩
        cases hcalled
      · exact arguments.takesVoid_usesOfArgs hvalued args
          (Fits.forall_ne_void hfits (hvalued.params _ (hvalued.sub _ hf)))
  | .assign x e pos, t, use, h, huse => by
    rw [Expr.usesAs, List.forall_mem_cons]
    refine ⟨fun hcalls => huse (h.eq_void_of_callsVoid hvalued hcalls), ?_⟩
    cases h with
    | assign hx value hfits =>
      exact value.takesVoid_usesAs hvalued e fun hvoid =>
        absurd hvoid (hfits.ne_void (hvalued.vars _ hx))

/-- Arguments have values, so the calls inside them are used as the arguments allow. -/
theorem HasTypes.takesVoid_usesOfArgs (hvalued : Valued fs reach vars) :
    ∀ (es : List Expr) {ts : List Ty}, HasTypes reach vars es ts → (∀ t ∈ ts, t ≠ .void) →
      ∀ u ∈ Expr.usesOfArgs es, u.2.CallsVoid fs → u.1.TakesVoid fs result
  | [], _, _, _ => by simp [Expr.usesOfArgs]
  | e :: es, _, h, hts => by
    rw [Expr.usesOfArgs, List.forall_mem_append]
    cases h with
    | cons head tail =>
      obtain ⟨ht, hts⟩ := List.forall_mem_cons.1 hts
      exact ⟨head.takesVoid_usesAs hvalued e fun hvoid => absurd hvoid ht,
        tail.takesVoid_usesOfArgs hvalued es hts⟩

end

/-- A condition has a value. -/
theorem HasType.takesVoid_condition (hvalued : Valued fs reach vars) {c : Expr}
    (h : HasType reach vars c .bool) :
    ∀ u ∈ c.usesAs .condition, u.2.CallsVoid fs → u.1.TakesVoid fs result :=
  h.takesVoid_usesAs hvalued c fun hvoid => absurd hvoid Ty.bool_ne_void

end

section

variable {fs reach : List Function} {result : Ty}

mutual

/-- In a typed statement, calls without a value are used as such. -/
theorem StmtTyped.takesVoid_uses : ∀ (s : Stmt) {vars : List (String × Ty)}, Valued fs reach vars →
    (∀ v ∈ s.bindings, v.2 ∈ Ty.values) → StmtTyped reach result vars s →
    ∀ u ∈ s.uses, u.2.CallsVoid fs → u.1.TakesVoid fs result
  | .expr e pos, vars, hvalued, _, h => by
    cases h with
    | expr he => exact he.takesVoid_usesAs hvalued e fun _ => .inl trivial
  | .declare t x init pos, vars, hvalued, hbindings, h => by
    cases h with
    | declare => simp [Stmt.uses]
    | @init _ _ _ _ e _ he hfits =>
      rw [Stmt.uses, Option.toList_some, List.flatMap_singleton]
      -- the variable is in scope in its own initial value
      exact he.takesVoid_usesAs (hvalued.append hbindings) e fun hvoid =>
        absurd hvoid (hfits.ne_void (hbindings (x, t) (List.mem_singleton_self _)))
  | .ifThen c b pos, vars, hvalued, hbindings, h => by
    rw [Stmt.uses, List.forall_mem_append]
    cases h with
    | ifThen cond body =>
      exact ⟨cond.takesVoid_condition hvalued, body.takesVoid_uses b hvalued hbindings⟩
  | .ifElse c b a pos, vars, hvalued, hbindings, h => by
    rw [Stmt.uses, List.forall_mem_append, List.forall_mem_append]
    obtain ⟨hbody, halternative⟩ := List.forall_mem_append.1 hbindings
    cases h with
    | ifElse cond body alternative =>
      exact ⟨cond.takesVoid_condition hvalued, body.takesVoid_uses b hvalued hbody,
        alternative.takesVoid_uses a (hvalued.append hbody) halternative⟩
  | .loop c b pos, vars, hvalued, hbindings, h => by
    rw [Stmt.uses, List.forall_mem_append]
    cases h with
    | loop cond body =>
      exact ⟨cond.takesVoid_condition hvalued, body.takesVoid_uses b hvalued hbindings⟩
  | .ret value pos, vars, hvalued, _, h => by
    cases h with
    | ret => simp [Stmt.uses]
    | @retValue _ e _ _ he hfits =>
      rw [Stmt.uses, Option.toList_some, List.flatMap_singleton]
      refine he.takesVoid_usesAs hvalued e fun hvoid => .inl ?_
      cases hfits with
      | same => exact hvoid
      | widened => cases hvoid

/-- In a typed block, calls without a value are used as such. -/
theorem BlockTyped.takesVoid_uses :
    ∀ (b : Block) {vars : List (String × Ty)}, Valued fs reach vars →
    (∀ v ∈ b.bindings, v.2 ∈ Ty.values) → BlockTyped reach result vars b →
    ∀ u ∈ b.uses, u.2.CallsVoid fs → u.1.TakesVoid fs result
  | .mk ss pos, vars, hvalued, hbindings, h => by
    cases h with
    | mk inner => exact inner.takesVoid_usesAll ss hvalued hbindings

theorem StmtsTyped.takesVoid_usesAll : ∀ (ss : List Stmt) {vars : List (String × Ty)},
    Valued fs reach vars → (∀ v ∈ Stmt.bindingsAll ss, v.2 ∈ Ty.values) →
    StmtsTyped reach result vars ss →
    ∀ u ∈ Stmt.usesAll ss, u.2.CallsVoid fs → u.1.TakesVoid fs result
  | [], _, _, _, _ => by simp [Stmt.usesAll]
  | s :: ss, vars, hvalued, hbindings, h => by
    rw [Stmt.usesAll, List.forall_mem_append]
    obtain ⟨hs, hss⟩ := List.forall_mem_append.1 hbindings
    cases h with
    | cons head tail =>
      exact ⟨head.takesVoid_uses s hvalued hs, tail.takesVoid_usesAll ss (hvalued.append hs) hss⟩

end

end

/-! ### Programs -/

/-- In a program without findings, a call without a value, one that `CallsVoid`, is a statement, is
given back by a function without a result, or is compared for equality with another such call. No
expression of a function is without a use, so `Function.uses` leaves nothing out. -/
theorem void_call_uses (options : Options) (source : String)
    (hclean : (compile options source).diagnostics = []) (p : Program)
    (hp : (compile options source).program = some p) (f : Function) (hf : f ∈ p.functions) :
    f.uses.map Prod.snd = f.body.exprs.flatMap Expr.subterms ∧
      ∀ u ∈ f.uses, u.2.CallsVoid p.functions →
        u.1.NeedsNoValue f.result ∨ u.1.ComparedWithVoid p.functions := by
  refine ⟨f.body.map_snd_uses, ?_⟩
  obtain ⟨hfindings, -, hprogram, -⟩ := compile_phases_of_clean hclean
  rw [hp, Option.some.injEq] at hprogram
  have hshaped : ∀ g ∈ p.functions, g.Shaped := hprogram ▸ shaped_parse source
  have htyped : p.WellTyped := wellTyped_of_clean hshaped (hprogram ▸ hfindings)
  have hparams : ∀ g ∈ p.functions, ∀ t ∈ g.params.map Param.type, t ∈ Ty.values :=
    fun g hg => List.forall_mem_map.2 (hshaped g hg).params
  obtain ⟨before, after, hsplit⟩ := List.append_of_mem hf
  -- a function may call itself and those in front of it, which are all among the functions
  have hreach : ∀ g ∈ before ++ [f], g ∈ p.functions := by
    intro g hg
    rw [hsplit, List.append_cons]
    exact List.mem_append_left after hg
  have hvalued : Valued p.functions (before ++ [f]) f.parameters :=
    ⟨htyped.distinct, hreach, hparams, List.forall_mem_map.2 (hshaped f hf).params⟩
  exact (htyped.functions before f after hsplit).body.takesVoid_uses f.body hvalued
    (hshaped f hf).body.bindings

/-- Calls without a value in all places where they may stand. -/
def comparing : String :=
  "void v() \x7b \x7d void w() \x7b v(); return v(); \x7d bool f() \x7b return v() == w(); \x7d"

/-- The four calls in `comparing` have no value, and each may stand where it stands. -/
theorem void_call_uses_comparing :
    (compile ⟨false, none⟩ comparing).diagnostics = [] ∧
      ∃ p, (compile ⟨false, none⟩ comparing).program = some p ∧
        p.functions.map (fun f => (f.uses.filter fun u => u.2.CallsVoid p.functions).length) =
          [0, 2, 2] ∧
        ∀ f ∈ p.functions, ∀ u ∈ f.uses, u.2.CallsVoid p.functions →
          u.1.NeedsNoValue f.result ∨ u.1.ComparedWithVoid p.functions := by
  have hclean : (compile ⟨false, none⟩ comparing).diagnostics = [] := by decide +kernel
  have hprogram := (compile_of_clean hclean).1
  refine ⟨hclean, _, hprogram, by decide +kernel, fun f hf => ?_⟩
  exact (void_call_uses _ _ hclean _ hprogram f hf).2

/-- Nothing is found wrong with `comparing`, but there a call without a value is an operand. -/
theorem void_operand_comparing :
    (compile ⟨false, none⟩ comparing).diagnostics = [] ∧
      ∃ p, (compile ⟨false, none⟩ comparing).program = some p ∧
        ∃ f ∈ p.functions, ∃ u ∈ f.uses, u.2.CallsVoid p.functions ∧
          ¬ u.1.NeedsNoValue f.result := by
  have hclean : (compile ⟨false, none⟩ comparing).diagnostics = [] := by decide +kernel
  exact ⟨hclean, _, (compile_of_clean hclean).1, by decide +kernel⟩

end Tricode
