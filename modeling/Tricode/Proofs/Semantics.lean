import Mathlib.Logic.Function.Basic
import Tricode.Proofs.Names

/-!
# Running statements

What a program computes, given what its literals, operators and calls mean (`Interpretation`). All
variables live in one environment. Operands are evaluated from left to right and all of them are
evaluated, also those of `&&` and `||`; a call is a function of the callee's name and the arguments'
values. An expression always has a value (`Expr.eval`), while a statement may run forever, so that
runs are given by the rules of `Stmt.Runs`.
-/

namespace Tricode

/-- What literals, operators, calls and conditions mean over values `V`. -/
structure Interpretation (V : Type) where
  literal : LiteralKind → String → V
  unary : String → V → V
  binary : String → V → V → V
  call : String → List V → V
  truth : V → Bool
  /-- The value of a variable that is declared without one. -/
  undefined : V

/-- The values of variables. -/
abbrev Env (V : Type) := String → V

variable {V : Type}

namespace Expr

mutual

/-- The value of an expression, and the environment behind it. -/
def eval (I : Interpretation V) : Expr → Env V → V × Env V
  | literal kind text _, ρ => (I.literal kind text, ρ)
  | ident x _, ρ => (ρ x, ρ)
  | unary op e _, ρ =>
    let a := e.eval I ρ
    (I.unary op a.1, a.2)
  | binary op l r _, ρ =>
    let a := l.eval I ρ
    let b := r.eval I a.2
    (I.binary op a.1 b.1, b.2)
  | call f args _, ρ =>
    let as := evalAll I args ρ
    (I.call f.callee as.1, as.2)
  | assign x e _, ρ =>
    let a := e.eval I ρ
    (a.1, Function.update a.2 x a.1)

/-- The values of expressions, and the environment behind them. -/
def evalAll (I : Interpretation V) : List Expr → Env V → List V × Env V
  | [], ρ => ([], ρ)
  | e :: es, ρ =>
    let a := e.eval I ρ
    let as := evalAll I es a.2
    (a.1 :: as.1, as.2)

end

mutual

/-- `eval` changes only the variables that are assigned in the expression. -/
theorem eval_of_not_mem_assigned (I : Interpretation V) {x : String} :
    ∀ (e : Expr) (ρ : Env V), (∀ part ∈ e.parts, part.target? ≠ some x) → (e.eval I ρ).2 x = ρ x
  | literal .., _, _ => rfl
  | ident .., _, _ => rfl
  | unary _ e _, ρ, h =>
    eval_of_not_mem_assigned I e ρ fun part hpart => h part (by simp [parts, hpart])
  | binary _ l r _, ρ, h => by
    have hl := eval_of_not_mem_assigned I l ρ fun part hpart => h part (by simp [parts, hpart])
    have hr := eval_of_not_mem_assigned I r (l.eval I ρ).2 fun part hpart =>
      h part (by simp [parts, hpart])
    exact hr.trans hl
  | call _ args _, ρ, h =>
    evalAll_of_not_mem_assigned I args ρ fun part hpart => h part (by simp [parts, hpart])
  | assign y e _, ρ, h => by
    have he := eval_of_not_mem_assigned I e ρ fun part hpart => h part (by simp [parts, hpart])
    -- the assignment is a part of itself, so its target is not `x`
    have hne : x ≠ y := by
      rintro rfl
      exact h _ (self_mem_parts _) rfl
    exact (Function.update_of_ne hne _ _).trans he

/-- `evalAll` changes only the variables that are assigned in the expressions. -/
theorem evalAll_of_not_mem_assigned (I : Interpretation V) {x : String} :
    ∀ (es : List Expr) (ρ : Env V), (∀ part ∈ partsAll es, part.target? ≠ some x) →
      (evalAll I es ρ).2 x = ρ x
  | [], _, _ => rfl
  | e :: es, ρ, h => by
    have he := eval_of_not_mem_assigned I e ρ fun part hpart => h part (by simp [partsAll, hpart])
    have hes := evalAll_of_not_mem_assigned I es (e.eval I ρ).2 fun part hpart =>
      h part (by simp [partsAll, hpart])
    exact hes.trans he

end

end Expr

/-- How a run ends: behind the last statement, or at a return, with or without a value. -/
inductive Ending (V : Type) where
  | atEnd
  | returned (value : Option V)

mutual

/-- The statement, run in the first environment, ends as said in the second. -/
inductive Stmt.Runs (I : Interpretation V) : Stmt → Env V → Ending V → Env V → Prop where
  | expr {e : Expr} {pos : Pos} {ρ : Env V} :
    Stmt.Runs I (.expr e pos) ρ .atEnd (e.eval I ρ).2
  | declare {type : Ty} {x : String} {pos : Pos} {ρ : Env V} :
    Stmt.Runs I (.declare type x none pos) ρ .atEnd (Function.update ρ x I.undefined)
  | init {type : Ty} {x : String} {e : Expr} {pos : Pos} {ρ : Env V} :
    Stmt.Runs I (.declare type x (some e) pos) ρ .atEnd
      (Function.update (e.eval I ρ).2 x (e.eval I ρ).1)
  | skip {c : Expr} {b : Block} {pos : Pos} {ρ : Env V} (hc : I.truth (c.eval I ρ).1 = false) :
    Stmt.Runs I (.ifThen c b pos) ρ .atEnd (c.eval I ρ).2
  | ifThen {c : Expr} {b : Block} {pos : Pos} {ρ ρ' : Env V} {o : Ending V}
    (hc : I.truth (c.eval I ρ).1 = true) (body : Stmt.RunAll I b.statements (c.eval I ρ).2 o ρ') :
    Stmt.Runs I (.ifThen c b pos) ρ o ρ'
  | ifElse {c : Expr} {b a : Block} {pos : Pos} {ρ ρ' : Env V} {o : Ending V}
    (hc : I.truth (c.eval I ρ).1 = true) (body : Stmt.RunAll I b.statements (c.eval I ρ).2 o ρ') :
    Stmt.Runs I (.ifElse c b a pos) ρ o ρ'
  | otherwise {c : Expr} {b a : Block} {pos : Pos} {ρ ρ' : Env V} {o : Ending V}
    (hc : I.truth (c.eval I ρ).1 = false)
    (alternative : Stmt.RunAll I a.statements (c.eval I ρ).2 o ρ') :
    Stmt.Runs I (.ifElse c b a pos) ρ o ρ'
  | exit {c : Expr} {b : Block} {pos : Pos} {ρ : Env V} (hc : I.truth (c.eval I ρ).1 = false) :
    Stmt.Runs I (.loop c b pos) ρ .atEnd (c.eval I ρ).2
  | again {c : Expr} {b : Block} {pos : Pos} {ρ ρ' ρ'' : Env V} {o : Ending V}
    (hc : I.truth (c.eval I ρ).1 = true)
    (body : Stmt.RunAll I b.statements (c.eval I ρ).2 .atEnd ρ')
    (rest : Stmt.Runs I (.loop c b pos) ρ' o ρ'') : Stmt.Runs I (.loop c b pos) ρ o ρ''
  | leave {c : Expr} {b : Block} {pos : Pos} {ρ ρ' : Env V} {value : Option V}
    (hc : I.truth (c.eval I ρ).1 = true)
    (body : Stmt.RunAll I b.statements (c.eval I ρ).2 (.returned value) ρ') :
    Stmt.Runs I (.loop c b pos) ρ (.returned value) ρ'
  | ret {pos : Pos} {ρ : Env V} : Stmt.Runs I (.ret none pos) ρ (.returned none) ρ
  | retValue {e : Expr} {pos : Pos} {ρ : Env V} :
    Stmt.Runs I (.ret (some e) pos) ρ (.returned (some (e.eval I ρ).1)) (e.eval I ρ).2

/-- The statements, run one behind the other in the first environment, end as said in the second. -/
inductive Stmt.RunAll (I : Interpretation V) : List Stmt → Env V → Ending V → Env V → Prop where
  | nil {ρ : Env V} : Stmt.RunAll I [] ρ .atEnd ρ
  | cons {s : Stmt} {ss : List Stmt} {ρ ρ' ρ'' : Env V} {o : Ending V}
    (first : Stmt.Runs I s ρ .atEnd ρ') (rest : Stmt.RunAll I ss ρ' o ρ'') :
    Stmt.RunAll I (s :: ss) ρ o ρ''
  | stop {s : Stmt} {ss : List Stmt} {ρ ρ' : Env V} {value : Option V}
    (first : Stmt.Runs I s ρ (.returned value) ρ') :
    Stmt.RunAll I (s :: ss) ρ (.returned value) ρ'

end

end Tricode
