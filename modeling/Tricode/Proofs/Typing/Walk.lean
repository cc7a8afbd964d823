import Tricode.Proofs.Typing.Visits

/-!
# The walk of the checker

While the checker visits a tree it visits other trees and types expressions, and those it types by
typing others. `Task.Step` says for a tree of any shape which tasks a task leads to and in which
context the checker comes to them; a task behind a failure is not come to. `Task.Comes` follows the
steps.

The run of a task that the checker comes to is a part of the whole run (`Task.Comes.within`). So a
walk that does not fail comes to no task that fails, and a walk that reports nothing comes to no
task that reports something.
-/

namespace Tricode

namespace Typing

open Pass

/-- What the checker is asked to do. -/
inductive Task where
  /-- Check a tree. -/
  | visit (n : Node)
  /-- Find the type of an expression. -/
  | type (n : Node)

namespace Task

/-- The pass that does it. -/
def pass : Task → Checker Ty
  | visit n => check n
  | type n => typeOf n

end Task

/-- The tree is checked, and not typed like an expression. -/
def checked : Node → Bool
  | .program .. | .function .. | .block .. | .declare .. | .conditional .. | .loop .. | .ret ..
  | .expr .. =>
    true
  | _ => false

/-- From the context `c`, a task leads directly to another one, to which the checker comes with the
context `c'`. -/
inductive Task.Step : Task → Context → Task → Context → Prop where
  | function {before after : List Node} {n : Node} {pos : Pos} {c c' : Context}
    {log : List (Finding TypingCause)} (lead : checkAll before c = ⟨.ok (), log, c'⟩) :
    Step (visit (.program (before ++ n :: after) pos)) c (visit n) c'
  | statement {before after : List Node} {n : Node} {pos : Pos} {c c' : Context}
    {log : List (Finding TypingCause)} (lead : checkAll before c = ⟨.ok (), log, c'⟩) :
    Step (visit (.block (before ++ n :: after) pos)) c (visit n) c'
  | body {result : Ty} {name scope : String} {params : List Node} {ps : List Param} {body : Node}
    {pos : Pos} {c c₁ c' : Context} {log log' : List (Finding TypingCause)}
    (hparams : params.mapM Node.asParam = .ok ps)
    (hdeclare : declareFunction name ⟨ps, result⟩ pos c = ⟨.ok scope, log, c₁⟩)
    (lead : declareParams ps (c₁.entered result ⟨scope, some SymbolTable.globalName, []⟩) =
      ⟨.ok (), log', c'⟩) :
    Step (visit (.function result name params body pos)) c (visit body) c'
  | init {t : Ty} {name : String} {init : Node} {pos : Pos} {c c' : Context}
    {log : List (Finding TypingCause)} (lead : declare name t .var pos c = ⟨.ok (), log, c'⟩)
    (hinit : init.isAbsent = false) : Step (visit (.declare t name init pos)) c (type init) c'
  | condition {cond body alternative : Node} {pos : Pos} {c : Context} :
    Step (visit (.conditional cond body alternative pos)) c (type cond) c
  | consequence {cond body alternative : Node} {pos : Pos} {c c' : Context}
    {log : List (Finding TypingCause)}
      (lead : checkCondition cond .ifCondition c = ⟨.ok (), log, c'⟩) :
    Step (visit (.conditional cond body alternative pos)) c (visit body) c'
  | alternative {cond body alternative : Node} {pos : Pos} {c c₁ c' : Context} {t : Ty}
    {log log' : List (Finding TypingCause)}
    (hcond : checkCondition cond .ifCondition c = ⟨.ok (), log, c₁⟩)
    (lead : check body c₁ = ⟨.ok t, log', c'⟩) (halternative : alternative.isAbsent = false) :
    Step (visit (.conditional cond body alternative pos)) c (visit alternative) c'
  | loopCondition {cond body : Node} {pos : Pos} {c : Context} :
    Step (visit (.loop cond body pos)) c (type cond) c
  | loopBody {cond body : Node} {pos : Pos} {c c' : Context} {log : List (Finding TypingCause)}
    (lead : checkCondition cond .whileCondition c = ⟨.ok (), log, c'⟩) :
    Step (visit (.loop cond body pos)) c (visit body) c'
  | value {value : Node} {pos : Pos} {c : Context} (hvalue : value.isAbsent = false) :
    Step (visit (.ret value pos)) c (type value) c
  | expr {e : Node} {pos : Pos} {c : Context} : Step (visit (.expr e pos)) c (type e) c
  | itself {n : Node} {c : Context} (hn : checked n = false) : Step (visit n) c (type n) c
  | operand {op : String} {e : Node} {pos : Pos} {c : Context} :
    Step (type (.unary op e pos)) c (type e) c
  | left {op : String} {l r : Node} {pos : Pos} {c : Context} :
    Step (type (.binary op l r pos)) c (type l) c
  | right {op : String} {l r : Node} {pos : Pos} {c : Context} {t : Ty}
    {log : List (Finding TypingCause)} (lead : infer c.table l () = ⟨.ok t, log, ()⟩) :
    Step (type (.binary op l r pos)) c (type r) c
  | argument {callee : Node} {before after : List Node} {e : Node} {pos : Pos} {c : Context}
    {target : Option (String × Signature)} {ts : List Ty} {log log' : List (Finding TypingCause)}
    (hcallee : calleeSignature c.table callee pos () = ⟨.ok target, log, ()⟩)
    (lead : inferAll c.table before () = ⟨.ok ts, log', ()⟩) :
    Step (type (.call callee (before ++ e :: after) pos)) c (type e) c
  | assigned {target e : Node} {name : String} {pos : Pos} {c : Context} {t : Ty}
    {log : List (Finding TypingCause)} (hname : target.name = .ok name)
    (lead : targetType c.table name target.pos () = ⟨.ok t, log, ()⟩) :
    Step (type (.assign target e pos)) c (type e) c

/-- From the context `c`, a task leads to another one, to which the checker comes with the context
`c'`. -/
inductive Task.Comes : Task → Context → Task → Context → Prop where
  | here {k : Task} {c : Context} : Comes k c k c
  | step {k k₁ k' : Task} {c c₁ c' : Context} (first : Step k c k₁ c₁) (rest : Comes k₁ c₁ k' c') :
    Comes k c k' c'

/-! ### The runs of tasks -/

section

variable {σ α : Type} {r : Outcome σ (Finding TypingCause) Fault α} {c c' : Context}
  {log : List (Finding TypingCause)}

theorem within_discard {β : Type} {m : Checker β} (h : r.Within (m c)) : r.Within (discard m c) :=
  Outcome.Within.bind_left h

/-- `typeOf` an expression is a part of `typeOf` what it stands in. -/
theorem within_typeOf {n e : Node} (h : (infer c.table e ()).Within (infer c.table n ())) :
    (typeOf e c).Within (typeOf n c) := by
  rw [typeOf_apply, typeOf_apply]
  exact ⟨h.failure, h.log⟩

/-- A tree is checked `Within` the check of the trees around it. -/
theorem within_checkAll {before after : List Node} {n : Node}
    (lead : checkAll before c = ⟨.ok (), log, c'⟩)
    (h : r.Within (check n c')) : r.Within (checkAll (before ++ n :: after) c) := by
  rw [checkAll_append]
  exact .bind_right lead (.bind_left (within_discard h))

theorem within_inferAll {table : SymbolTable} {before after : List Node} {e : Node} {ts : List Ty}
    (lead : inferAll table before () = ⟨.ok ts, log, ()⟩) (h : r.Within (infer table e ())) :
    r.Within (inferAll table (before ++ e :: after) ()) := by
  induction before generalizing ts log with
  | nil => exact .bind_left h
  | cons b before ih =>
    rw [List.cons_append, inferAll]
    -- an expression in front that fails would have kept the checker from coming here
    cases hb : infer table b () with
    | mk value log₁ s =>
      cases value with
      | error e =>
        rw [inferAll, bind_of_error hb] at lead
        cases lead
      | ok t =>
        rw [inferAll, bind_of_ok hb] at lead
        refine .bind_right hb (.bind_left ?_)
        cases hrest : inferAll table before () with
        | mk value' log₂ s' =>
          cases value' with
          | error e =>
            rw [bind_of_error hrest] at lead
            cases lead
          | ok ts' => exact ih hrest

/-- The body of a function is checked `Within` the check of the function. -/
theorem within_inFunction {β : Type} {scope : String} {result : Ty} {body : Checker β}
    (h : r.Within (body { c with table.current := scope, returnType := result.given? })) :
    r.Within (inFunction scope result body c) :=
  ⟨h.failure, h.log⟩

theorem within_checkCondition {cond : Node} {cause : TypingCause} :
    (typeOf cond c).Within (checkCondition cond cause c) :=
  .bind_left (.refl _)

/-- The value of a return statement is typed `Within` the check of the statement. -/
theorem within_checkReturn {value : Node} {pos : Pos} (hvalue : value.isAbsent = false) :
    (typeOf value c).Within (checkReturn value pos c) := by
  have hget : (Pass.get : Checker Context).Yields c c c := rfl
  rw [checkReturn, hget.bind_apply]
  simp only [hvalue, Bool.false_eq_true, if_false]
  cases c.returnType with
  | none => exact .bind_right rfl (within_discard (.refl _))
  | some expected => exact .bind_left (.refl _)

end

/-- `check` types what is no statement, function or program as an expression. -/
theorem check_eq_typeOf {n : Node} (h : checked n = false) : check n = typeOf n := by
  cases n with
  | program | function | block | declare | conditional | loop | ret | expr => cases h
  | _ => rfl

/-- The run of the second `Task` is a part of the run of the first. -/
theorem Task.Step.within {k k' : Task} {c c' : Context} (h : Step k c k' c') :
    (k'.pass c').Within (k.pass c) := by
  cases h with
  | function lead =>
    show (check _ c').Within (check _ c)
    rw [check]
    exact .bind_left (within_checkAll lead (.refl _))
  | statement lead =>
    show (check _ c').Within (check _ c)
    rw [check]
    exact .bind_left (within_checkAll lead (.refl _))
  -- behind the declaration the scope is opened, and then the body is run inside it
  | body hparams hdeclare lead =>
    show (check _ c').Within (check _ c)
    rw [check, hparams, ofExcept_ok, pure_bind]
    refine .bind_right hdeclare (.bind_right rfl (.bind_left (within_inFunction ?_)))
    exact .bind_right lead (within_discard (.refl _))
  | init lead hinit =>
    show (typeOf _ c').Within (check _ c)
    rw [check, hinit]
    exact .bind_right lead (.bind_left (.refl _))
  | condition =>
    show (typeOf _ c).Within (check _ c)
    rw [check]
    exact .bind_left within_checkCondition
  | consequence lead =>
    show (check _ c').Within (check _ c)
    rw [check]
    exact .bind_right lead (.bind_left (within_discard (.refl _)))
  | alternative hcond lead halternative =>
    show (check _ c').Within (check _ c)
    rw [check, halternative]
    refine .bind_right hcond (.bind_right (discard_eq lead) ?_)
    exact .bind_left (within_discard (.refl _))
  | loopCondition =>
    show (typeOf _ c).Within (check _ c)
    rw [check]
    exact .bind_left within_checkCondition
  | loopBody lead =>
    show (check _ c').Within (check _ c)
    rw [check]
    exact .bind_right lead (.bind_left (within_discard (.refl _)))
  | value hvalue =>
    show (typeOf _ c).Within (check _ c)
    rw [check]
    exact .bind_left (within_checkReturn hvalue)
  | expr =>
    show (typeOf _ c).Within (check _ c)
    rw [check]
    exact .bind_left (within_discard (.refl _))
  | itself hn =>
    show (typeOf _ c).Within (check _ c)
    rw [check_eq_typeOf hn]
    exact .refl _
  | operand => exact within_typeOf (.bind_left (.refl _))
  | left => exact within_typeOf (.bind_left (.refl _))
  | right lead => exact within_typeOf (.bind_right lead (.bind_left (.refl _)))
  | argument hcallee lead =>
    exact within_typeOf (.bind_right hcallee (.bind_left (within_inferAll lead (.refl _))))
  | assigned hname lead =>
    refine within_typeOf ?_
    rw [infer, hname, ofExcept_ok, pure_bind]
    exact .bind_right lead (.bind_left (.refl _))

/-- The run of a `Task` that the checker `Comes` to is a part of the whole run. -/
theorem Task.Comes.within {k k' : Task} {c c' : Context} (h : Comes k c k' c') :
    (k'.pass c').Within (k.pass c) := by
  induction h with
  | here => exact .refl _
  | step first _ ih => exact ih.trans first.within

end Typing

end Tricode
