import Mathlib.Data.List.Forall2
import Tricode.Proofs.Names

/-!
# The type system

Which programs are well typed, said without a symbol table, without an order of checks and without a
type for what failed.

An expression is typed under the functions that may be called and under the variables in scope
(`HasType`). A statement is typed under the variables that stand in front of it in the text
(`StmtTyped`): a function has one scope, so what a nested block declares stays in scope behind the
block, and a variable is in scope in its own initial value. The only conversion is from `int` to
`float` (`Fits`).

`Function.WellTyped` and `Program.WellTyped` add that names are declared once: functions in a
program, and parameters and variables in a function, wherever in its body they are declared. A
function may call itself and the functions in front of it.
-/

namespace Tricode

/-- A value of the second type may stand where one of the first is wanted. -/
inductive Fits : (wanted actual : Ty) → Prop where
  | same {t : Ty} : Fits t t
  | widened : Fits .float .int

/-- The types that arithmetic is defined on. -/
inductive Numeric : Ty → Prop where
  | int : Numeric .int
  | float : Numeric .float

/-- Values of these types can be compared for equality: they have one type, or both are numbers. -/
inductive Comparable : Ty → Ty → Prop where
  | same {t : Ty} : Comparable t t
  | intFloat : Comparable .int .float
  | floatInt : Comparable .float .int

/-! ### Expressions -/

mutual

/-- The expression has the type, when the functions `fs` may be called and the variables `vars` are
in scope. -/
inductive HasType (fs : List Function) (vars : List (String × Ty)) : Expr → Ty → Prop where
  | int {text : String} {pos : Pos} : HasType fs vars (.literal .int text pos) .int
  | float {text : String} {pos : Pos} : HasType fs vars (.literal .float text pos) .float
  | bool {text : String} {pos : Pos} : HasType fs vars (.literal .bool text pos) .bool
  | var {x : String} {pos : Pos} {t : Ty} (hx : (x, t) ∈ vars) : HasType fs vars (.ident x pos) t
  | minus {e : Expr} {pos : Pos} {t : Ty} (operand : HasType fs vars e t) (ht : Numeric t) :
    HasType fs vars (.unary "-" e pos) t
  | not {e : Expr} {pos : Pos} (operand : HasType fs vars e .bool) :
    HasType fs vars (.unary "!" e pos) .bool
  | arithmetic {op : String} {l r : Expr} {pos : Pos} {t u : Ty} (hop : op ∈ ["+", "-", "*", "/"])
    (left : HasType fs vars l t) (right : HasType fs vars r u) (ht : Numeric t) (hu : Numeric u) :
    HasType fs vars (.binary op l r pos) (if t = .float ∨ u = .float then .float else .int)
  | equality {op : String} {l r : Expr} {pos : Pos} {t u : Ty} (hop : op ∈ ["==", "!="])
    (left : HasType fs vars l t) (right : HasType fs vars r u) (htu : Comparable t u) :
    HasType fs vars (.binary op l r pos) .bool
  | order {op : String} {l r : Expr} {pos : Pos} {t u : Ty} (hop : op ∈ ["<", ">", "<=", ">="])
    (left : HasType fs vars l t) (right : HasType fs vars r u) (ht : Numeric t) (hu : Numeric u) :
    HasType fs vars (.binary op l r pos) .bool
  | logical {op : String} {l r : Expr} {pos : Pos} (hop : op ∈ ["&&", "||"])
    (left : HasType fs vars l .bool) (right : HasType fs vars r .bool) :
    HasType fs vars (.binary op l r pos) .bool
  | call {f : Function} {args : List Expr} {types : List Ty} {p pos : Pos} (hf : f ∈ fs)
    (hvisible : ∀ t, (f.name, t) ∉ vars) (arguments : HasTypes fs vars args types)
    (hfits : List.Forall₂ Fits (f.params.map Param.type) types) :
    HasType fs vars (.call (.ident f.name p) args pos) f.result
  | assign {x : String} {e : Expr} {pos : Pos} {t u : Ty} (hx : (x, t) ∈ vars)
    (value : HasType fs vars e u) (hfits : Fits t u) : HasType fs vars (.assign x e pos) t

/-- The expressions have the types, one by one. -/
inductive HasTypes (fs : List Function) (vars : List (String × Ty)) :
    List Expr → List Ty → Prop where
  | nil : HasTypes fs vars [] []
  | cons {e : Expr} {es : List Expr} {t : Ty} {ts : List Ty} (head : HasType fs vars e t)
    (tail : HasTypes fs vars es ts) : HasTypes fs vars (e :: es) (t :: ts)

end

theorem HasTypes.length_eq {fs : List Function} {vars : List (String × Ty)} {es : List Expr}
    {ts : List Ty} (hes : HasTypes fs vars es ts) : es.length = ts.length := by
  induction es generalizing ts with
  | nil =>
    cases hes
    rfl
  | cons e es ih =>
    cases hes with
    | cons head tail => rw [List.length_cons, List.length_cons, ih tail]

namespace HasType

variable {fs : List Function} {vars : List (String × Ty)}

/-- The operand of a typed operation has a type. -/
theorem exists_operand {op : String} {e : Expr} {pos : Pos} {t : Ty}
    (h : HasType fs vars (.unary op e pos) t) : ∃ u, HasType fs vars e u := by
  cases h with
  | minus operand => exact ⟨_, operand⟩
  | not operand => exact ⟨_, operand⟩

/-- The operands of a typed operation have types. -/
theorem exists_operands {op : String} {l r : Expr} {pos : Pos} {t : Ty}
    (h : HasType fs vars (.binary op l r pos) t) :
    (∃ u, HasType fs vars l u) ∧ ∃ u, HasType fs vars r u := by
  cases h with
  | arithmetic _ left right => exact ⟨⟨_, left⟩, _, right⟩
  | equality _ left right => exact ⟨⟨_, left⟩, _, right⟩
  | order _ left right => exact ⟨⟨_, left⟩, _, right⟩
  | logical _ left right => exact ⟨⟨_, left⟩, _, right⟩

end HasType

mutual

/-- What is inside a typed expression has a type. -/
theorem HasType.exists_of_mem_parts {fs : List Function} {vars : List (String × Ty)} :
    ∀ (e : Expr) {t : Ty} {part : Expr}, HasType fs vars e t → part ∈ e.parts →
      ∃ u, HasType fs vars part u
  | .literal .., t, part, h, hpart => by
    rw [Expr.parts, List.mem_singleton] at hpart
    exact hpart ▸ ⟨t, h⟩
  | .ident .., t, part, h, hpart => by
    rw [Expr.parts, List.mem_singleton] at hpart
    exact hpart ▸ ⟨t, h⟩
  | .unary op e pos, t, part, h, hpart => by
    rw [Expr.parts, List.mem_cons] at hpart
    rcases hpart with rfl | hpart
    · exact ⟨t, h⟩
    · obtain ⟨u, he⟩ := h.exists_operand
      exact HasType.exists_of_mem_parts e he hpart
  | .binary op l r pos, t, part, h, hpart => by
    rw [Expr.parts, List.mem_cons, List.mem_append] at hpart
    obtain ⟨⟨u, hl⟩, v, hr⟩ := h.exists_operands
    rcases hpart with rfl | hpart | hpart
    · exact ⟨t, h⟩
    · exact HasType.exists_of_mem_parts l hl hpart
    · exact HasType.exists_of_mem_parts r hr hpart
  | .call f args pos, t, part, h, hpart => by
    rw [Expr.parts, List.mem_cons] at hpart
    rcases hpart with rfl | hpart
    · exact ⟨t, h⟩
    · cases h with
      | call _ _ arguments => exact HasTypes.exists_of_mem_partsAll args arguments hpart
  | .assign x e pos, t, part, h, hpart => by
    rw [Expr.parts, List.mem_cons] at hpart
    rcases hpart with rfl | hpart
    · exact ⟨t, h⟩
    · cases h with
      | assign _ value => exact HasType.exists_of_mem_parts e value hpart

theorem HasTypes.exists_of_mem_partsAll {fs : List Function} {vars : List (String × Ty)} :
    ∀ (es : List Expr) {ts : List Ty} {part : Expr}, HasTypes fs vars es ts →
      part ∈ Expr.partsAll es → ∃ u, HasType fs vars part u
  | [], ts, part, _, hpart => by simp [Expr.partsAll] at hpart
  | e :: es, ts, part, h, hpart => by
    rw [Expr.partsAll, List.mem_append] at hpart
    cases h with
    | cons head tail =>
      rcases hpart with hpart | hpart
      · exact HasType.exists_of_mem_parts e head hpart
      · exact HasTypes.exists_of_mem_partsAll es tail hpart

end

/-! ### Statements -/

mutual

/-- The statement is well typed in a function with the given result, when the functions `fs` may be
called and the variables `vars` are declared in front of it. -/
inductive StmtTyped (fs : List Function) (result : Ty) : List (String × Ty) → Stmt → Prop where
  | expr {vars : List (String × Ty)} {e : Expr} {pos : Pos} {t : Ty} (he : HasType fs vars e t) :
    StmtTyped fs result vars (.expr e pos)
  | declare {vars : List (String × Ty)} {t : Ty} {x : String} {pos : Pos} :
    StmtTyped fs result vars (.declare t x none pos)
  | init {vars : List (String × Ty)} {t u : Ty} {x : String} {e : Expr} {pos : Pos}
    (he : HasType fs (vars ++ [(x, t)]) e u) (hfits : Fits t u) :
    StmtTyped fs result vars (.declare t x (some e) pos)
  | ifThen {vars : List (String × Ty)} {c : Expr} {b : Block} {pos : Pos}
    (cond : HasType fs vars c .bool) (body : BlockTyped fs result vars b) :
    StmtTyped fs result vars (.ifThen c b pos)
  | ifElse {vars : List (String × Ty)} {c : Expr} {b a : Block} {pos : Pos}
    (cond : HasType fs vars c .bool) (body : BlockTyped fs result vars b)
    (alternative : BlockTyped fs result (vars ++ b.bindings) a) :
    StmtTyped fs result vars (.ifElse c b a pos)
  | loop {vars : List (String × Ty)} {c : Expr} {b : Block} {pos : Pos}
    (cond : HasType fs vars c .bool) (body : BlockTyped fs result vars b) :
    StmtTyped fs result vars (.loop c b pos)
  | ret {vars : List (String × Ty)} {pos : Pos} (hresult : result = .void) :
    StmtTyped fs result vars (.ret none pos)
  | retValue {vars : List (String × Ty)} {e : Expr} {pos : Pos} {t : Ty} (he : HasType fs vars e t)
    (hfits : Fits result t) : StmtTyped fs result vars (.ret (some e) pos)

/-- The block is well typed. -/
inductive BlockTyped (fs : List Function) (result : Ty) : List (String × Ty) → Block → Prop where
  | mk {vars : List (String × Ty)} {ss : List Stmt} {pos : Pos}
    (inner : StmtsTyped fs result vars ss) : BlockTyped fs result vars (.mk ss pos)

/-- The statements are well typed, each under what those in front of it declare. -/
inductive StmtsTyped (fs : List Function) (result : Ty) :
    List (String × Ty) → List Stmt → Prop where
  | nil {vars : List (String × Ty)} : StmtsTyped fs result vars []
  | cons {vars : List (String × Ty)} {s : Stmt} {ss : List Stmt} (head : StmtTyped fs result vars s)
    (tail : StmtsTyped fs result (vars ++ s.bindings) ss) : StmtsTyped fs result vars (s :: ss)

end

/-! ### Functions and programs -/

/-- The parameters of a function with their types. -/
def Function.parameters (f : Function) : List (String × Ty) :=
  f.params.map fun p => (p.name, p.type)

/-- The function is well typed, when the functions `fs` may be called. -/
structure Function.WellTyped (fs : List Function) (f : Function) : Prop where
  /-- Parameters and variables have different names. -/
  distinct : f.variables.Nodup
  body : BlockTyped fs f.result f.parameters f.body

/-- The program is well typed. -/
structure Program.WellTyped (p : Program) : Prop where
  /-- Functions have different names. -/
  distinct : (p.functions.map Function.name).Nodup
  /-- A function may call itself and those in front of it. -/
  functions : ∀ before f after, p.functions = before ++ f :: after → f.WellTyped (before ++ [f])

end Tricode
