import Tricode.Proofs.Parser.Shape
import Tricode.Proofs.Typing.Inference

/-!
# The checker accepts exactly the well-typed programs

The checker walks a program once, with a symbol table that it extends. Under a table that agrees
with the functions and the variables in scope (`Located`), it passes a statement in silence exactly
if the statement is well typed and declares only new names (`decides_check`), and a function exactly
if its name is new and it is well typed behind those in front of it (`decides_check_function`).

What is declared with the type `unknown` would be silent without being typed. The parser gives no
such types (`shaped_parse`), and `findings_eq_nil_iff_wellTyped` is about the programs that it
gives.
-/

namespace Tricode

namespace Typing

open Pass

variable {fs : List Function} {vars : List (String × Ty)} {table : SymbolTable}

/-! ### Statements -/

/-- The context inside a function with the given result. -/
structure Located (fs : List Function) (result : Ty) (vars : List (String × Ty))
    (context : Context) :
    Prop where
  agrees : Agrees fs vars context.table
  returnType : context.returnType = some result
  known : result ≠ .unknown

variable {result : Ty}

/-- `typeOf` an expression passes in silence exactly if the expression has the type. -/
theorem typeOf_yields_iff {context context' : Context} (h : Agrees fs vars context.table) {e : Expr}
    {t : Ty} :
    (typeOf e.toNode).Yields context t context' ↔ HasType fs vars e t ∧ context' = context := by
  rw [← infer_yields_iff h, Yields, Yields, typeOf_apply]
  cases infer context.table e.toNode () with
  | mk value log state => simp only [Outcome.mk.injEq, and_true, and_assoc, eq_comm]

/-- `typeOf` an expression, and what is held against its type with `require`. -/
theorem decides_typeOf_require (e : Expr) {ok : Ty → Bool} {cause : Ty → TypingCause} {pos : Pos} :
    (typeOf e.toNode >>= fun t => require (ok t) (cause t) pos).Decides (Located fs result vars)
      (∃ t, HasType fs vars e t ∧ ok t = true) (Located fs result vars) := by
  intro context hcontext
  constructor
  · rintro ⟨t, ht, hok⟩
    refine ⟨(), context, yields_bind_iff.2 ⟨t, context, ?_, require_yields_iff.2 ⟨hok, rfl⟩⟩⟩
    exact (typeOf_yields_iff hcontext.agrees).2 ⟨ht, rfl⟩
  · intro _ context' h
    obtain ⟨t, _, htype, hrequire⟩ := yields_bind_iff.1 h
    obtain ⟨ht, rfl⟩ := (typeOf_yields_iff hcontext.agrees).1 htype
    obtain ⟨hok, rfl⟩ := require_yields_iff.1 hrequire
    exact ⟨⟨t, ht, hok⟩, hcontext⟩

/-- A value passes in silence exactly if it fits the type that is wanted. -/
theorem decides_value (e : Expr) {wanted : Ty} (hwanted : wanted ≠ .unknown)
    {cause : Ty → TypingCause} {pos : Pos} :
    (typeOf e.toNode >>= fun t => require (wanted.assignable t) (cause t) pos).Decides
      (Located fs result vars) (∃ t, HasType fs vars e t ∧ Fits wanted t)
        (Located fs result vars) := by
  refine (decides_typeOf_require e).congr fun context hcontext => exists_congr fun t => ?_
  exact and_congr_right fun ht => assignable_eq_true_iff hwanted (hcontext.agrees.ne_unknown ht)

/-- `checkCondition` passes in silence exactly if the condition is a truth value. -/
theorem decides_checkCondition (e : Expr) (cause : TypingCause) :
    (checkCondition e.toNode cause).Decides (Located fs result vars) (HasType fs vars e .bool)
      (Located fs result vars) := by
  have hcondition : (checkCondition e.toNode cause).Decides (Located fs result vars)
      (∃ t, HasType fs vars e t ∧ (t == .bool || t == .unknown) = true) (Located fs result vars) :=
    decides_typeOf_require e
  refine hcondition.congr fun context hcontext => ?_
  constructor
  · rintro ⟨t, ht, hok⟩
    -- no type is unknown where everything is declared, so the condition is a truth value
    have hne := hcontext.agrees.ne_unknown ht
    obtain rfl : t = .bool := by simpa [hne] using hok
    exact ht
  · exact fun ht => ⟨.bool, ht, rfl⟩

/-- `checkReturn` passes in silence exactly if the return statement is well typed. -/
theorem decides_checkReturn (value : Option Expr) (pos : Pos) :
    (checkReturn (.ofExpr? value) pos).Decides (Located fs result vars)
      (StmtTyped fs result vars (.ret value pos)) (Located fs result vars) := by
  refine decides_get_bind fun context hcontext => ?_
  rw [hcontext.returnType]
  cases value with
  | none =>
    intro context hcontext
    refine ⟨fun h => ?_, fun _ context' h => ?_⟩
    · cases h with
      | ret hresult => exact ⟨(), context, require_yields_iff.2 ⟨by simpa using hresult, rfl⟩⟩
    · obtain ⟨hresult, rfl⟩ := require_yields_iff.1 h
      exact ⟨.ret (by simpa using hresult), hcontext⟩
  | some e =>
    simp only [Node.ofExpr?, e.isAbsent_toNode, Bool.false_eq_true, if_false]
    refine (decides_value e hcontext.known).congr fun _ _ => ?_
    constructor
    · rintro ⟨t, ht, hfits⟩
      exact .retValue ht hfits
    · intro h
      cases h with
      | retValue ht hfits => exact ⟨_, ht, hfits⟩

/-- A name is new to names that are all different exactly if it can be added to them. -/
theorem nodup_append_singleton_iff {x : String} {t : Ty} (h : (vars.map Prod.fst).Nodup) :
    ((vars ++ [(x, t)]).map Prod.fst).Nodup ↔ x ∉ vars.map Prod.fst := by
  rw [List.map_append, List.map_singleton, ← List.concat_eq_append, List.nodup_concat]
  exact and_iff_left h

/-- A table still `Agrees` when its current scope is extended by a variable with a new name. -/
theorem Agrees.put_insert (h : Agrees fs vars table) {scope : Scope}
    (hscope : table.currentScope = .ok scope)
    (hentries : scope.symbols.map (fun s => (s.name, s.type, s.signature?)) =
      vars.map fun v => (v.1, v.2, none)) {s : Symbol} (hs : s.signature? = none)
    (hname : s.name ∉ vars.map Prod.fst) (hknown : s.type ≠ .unknown) :
    Agrees fs (vars ++ [(s.name, s.type)]) (table.put (scope.insert s)) := by
  have hcurrent : scope.name = table.current := SymbolTable.name_of_currentScope hscope h.current
  have hlocal : (scope.insert s).name ≠ SymbolTable.globalName := hcurrent ▸ h.current
  refine ⟨?_, ?_, ⟨scope.insert s, SymbolTable.currentScope_eq ?_, ?_⟩, ?_, ?_⟩
  · rw [SymbolTable.globals_put _ hlocal]
    exact h.globals
  · rw [SymbolTable.current_put]
    exact h.current
  · rw [SymbolTable.current_put, ← hcurrent]
    exact SymbolTable.scope?_put _ _ hlocal
  · rw [Scope.insert, List.map_append, List.map_append, hentries, List.map_singleton, hs]
    rfl
  · exact (nodup_append_singleton_iff h.nodup).2 hname
  · exact List.forall_mem_append.2 ⟨h.known, List.forall_mem_singleton.2 hknown⟩

/-- `declare` passes in silence exactly if the name is new. -/
theorem decides_declare {x : String} {t : Ty} (ht : t ≠ .unknown) {role : Role} {pos : Pos}
    (hrole : (⟨x, t, role, pos⟩ : Symbol).signature? = none) :
    (declare x t role pos).Decides (Located fs result vars) (x ∉ vars.map Prod.fst)
      (Located fs result (vars ++ [(x, t)])) := by
  intro context hcontext
  obtain ⟨scope, hscope, hentries⟩ := hcontext.agrees.scope
  -- the names in the scope are those of the variables
  have hnames : names scope = vars.map Prod.fst := by
    have hmap := congrArg (List.map Prod.fst) hentries
    rw [List.map_map, List.map_map] at hmap
    exact hmap
  have hget : (Pass.get : Checker Context).Yields context context context := rfl
  have hrun : declare x t role pos context =
      (if (scope.find? x).isSome = true then
        report (if role = .param then .parameterRedeclared x else .variableRedeclared x) pos
      else
        Pass.modify fun context =>
          { context with table := context.table.put (scope.insert ⟨x, t, role, pos⟩) } :
        Checker Unit) context := by
    rw [declare, hget.bind_apply, hscope, ofExcept_ok, pure_bind]
  unfold Yields
  rw [hrun]
  rw [← hnames]
  -- a name that is there already is reported
  by_cases hx : x ∈ names scope
  · rw [if_pos (find?_isSome_iff.2 hx)]
    exact ⟨fun hnew => absurd hx hnew, fun _ _ h => absurd h not_yields_write⟩
  · rw [if_neg (mt find?_isSome_iff.1 hx)]
    refine ⟨fun _ => ⟨(), _, rfl⟩, fun _ context' h => ⟨hx, ?_⟩⟩
    obtain rfl : _ = context' := (Outcome.mk.inj h).2.2
    exact ⟨hcontext.agrees.put_insert hscope hentries hrole (hnames ▸ hx) ht, hcontext.returnType,
      hcontext.known⟩

/-- What follows is checked under what comes first declares, and all names are different exactly if
they are so at both steps. -/
theorem and_nodup_append_iff {P Q : Prop} {b c : List (String × Ty)} :
    (P ∧ ((vars ++ b).map Prod.fst).Nodup) ∧ Q ∧ (((vars ++ b) ++ c).map Prod.fst).Nodup ↔
      (P ∧ Q) ∧ ((vars ++ (b ++ c)).map Prod.fst).Nodup := by
  rw [List.append_assoc]
  constructor
  · rintro ⟨⟨hP, -⟩, hQ, hnodup⟩
    exact ⟨⟨hP, hQ⟩, hnodup⟩
  · rintro ⟨⟨hP, hQ⟩, hnodup⟩
    have hfirst : ((vars ++ b).map Prod.fst).Nodup := by
      rw [← List.append_assoc, List.map_append] at hnodup
      exact hnodup.of_append_left
    exact ⟨⟨hP, hfirst⟩, hQ, hnodup⟩

/-- A statement that declares nothing. -/
theorem decides_of_no_bindings {m : Checker Ty} {Q : Prop}
    (h : m.Decides (Located fs result vars) Q (Located fs result vars)) :
    m.Decides (Located fs result vars) (Q ∧ ((vars ++ []).map Prod.fst).Nodup)
      (Located fs result (vars ++ [])) := by
  rw [List.append_nil]
  exact h.congr fun context hcontext => ⟨fun hQ => ⟨hQ, hcontext.agrees.nodup⟩, And.left⟩

mutual

/-- `check` passes a statement in silence exactly if it is well typed and declares new names only.
Behind it they are in scope. -/
theorem decides_check (vars : List (String × Ty)) : ∀ s : Stmt, (∀ b ∈ s.bindings, b.2 ≠ .unknown) →
    (check s.toNode).Decides (Located fs result vars)
      (StmtTyped fs result vars s ∧ ((vars ++ s.bindings).map Prod.fst).Nodup)
      (Located fs result (vars ++ s.bindings))
  | .expr e pos, _ => by
    refine decides_of_no_bindings ?_
    intro context hcontext
    constructor
    · intro h
      cases h with
      | expr he =>
        have htype := (typeOf_yields_iff hcontext.agrees).2 ⟨he, rfl⟩
        exact ⟨_, _, yields_bind_iff.2 ⟨_, _, discard_eq htype, rfl⟩⟩
    · intro a context' h
      obtain ⟨_, _, hdiscard, hpure⟩ := yields_bind_iff.1 h
      obtain ⟨t, htype, -⟩ := yields_map_iff.1 hdiscard
      obtain ⟨ht, rfl⟩ := (typeOf_yields_iff hcontext.agrees).1 htype
      obtain ⟨-, rfl⟩ := yields_pure_iff.1 hpure
      exact ⟨.expr ht, hcontext⟩
  | .declare t x none pos, hknown => by
    have ht : t ≠ .unknown := hknown (x, t) (by simp [Stmt.bindings])
    refine ((decides_declare ht rfl).bind_pure _).congr fun context hcontext => ?_
    rw [Stmt.bindings, nodup_append_singleton_iff hcontext.agrees.nodup]
    exact ⟨fun hx => ⟨.declare, hx⟩, And.right⟩
  | .declare t x (some e) pos, hknown => by
    have ht : t ≠ .unknown := hknown (x, t) (by simp [Stmt.bindings])
    rw [Stmt.toNode, check]
    simp only [Node.ofExpr?, e.isAbsent_toNode, Bool.false_eq_true, if_false]
    -- the value is typed with the variable already in scope
    have hinit : (typeOf e.toNode >>= fun u =>
        require (t.assignable u) (.cannotAssign u t) pos >>= fun _ => pure Ty.void).Decides
          (Located fs result (vars ++ [(x, t)]))
          (∃ u, HasType fs (vars ++ [(x, t)]) e u ∧ Fits t u)
          (Located fs result (vars ++ [(x, t)])) := by
      rw [← bind_assoc]
      exact (decides_value e ht).bind_pure _
    refine ((decides_declare ht rfl).bind fun _ => hinit).congr fun context hcontext => ?_
    rw [Stmt.bindings, nodup_append_singleton_iff hcontext.agrees.nodup]
    constructor
    · rintro ⟨hx, u, hu, hfits⟩
      exact ⟨.init hu hfits, hx⟩
    · rintro ⟨h, hx⟩
      cases h with
      | init hu hfits => exact ⟨hx, _, hu, hfits⟩
  | .ifThen c b pos, hknown => by
    refine ((decides_checkCondition c _).bind fun _ =>
      (decides_checkBlock vars b hknown).discard.bind_pure _).congr fun _ _ => ?_
    constructor
    · rintro ⟨hc, hb, hnodup⟩
      exact ⟨.ifThen hc hb, hnodup⟩
    · rintro ⟨h, hnodup⟩
      cases h with
      | ifThen hc hb => exact ⟨hc, hb, hnodup⟩
  | .ifElse c b a pos, hknown => by
    obtain ⟨hb, ha⟩ := List.forall_mem_append.1 hknown
    rw [Stmt.toNode, check]
    simp only [a.isAbsent_toNode, Bool.false_eq_true, if_false, Stmt.bindings]
    rw [← List.append_assoc vars]
    -- what the body declares is still in scope in the alternative
    refine ((decides_checkCondition c _).bind fun _ =>
      (decides_checkBlock vars b hb).discard.bind fun _ =>
        (decides_checkBlock (vars ++ b.bindings) a ha).discard.bind_pure _).congr fun _ _ => ?_
    rw [and_nodup_append_iff, ← List.append_assoc vars]
    constructor
    · rintro ⟨hc, ⟨hb, ha⟩, hnodup⟩
      exact ⟨.ifElse hc hb ha, hnodup⟩
    · rintro ⟨h, hnodup⟩
      cases h with
      | ifElse hc hb ha => exact ⟨hc, ⟨hb, ha⟩, hnodup⟩
  | .loop c b pos, hknown => by
    refine ((decides_checkCondition c _).bind fun _ =>
      (decides_checkBlock vars b hknown).discard.bind_pure _).congr fun _ _ => ?_
    constructor
    · rintro ⟨hc, hb, hnodup⟩
      exact ⟨.loop hc hb, hnodup⟩
    · rintro ⟨h, hnodup⟩
      cases h with
      | loop hc hb => exact ⟨hc, hb, hnodup⟩
  | .ret value pos, _ => decides_of_no_bindings ((decides_checkReturn value pos).bind_pure _)

/-- `check` passes a block in silence exactly if it is well typed and declares new names only. -/
theorem decides_checkBlock (vars : List (String × Ty)) : ∀ b : Block,
    (∀ v ∈ b.bindings, v.2 ≠ .unknown) →
    (check b.toNode).Decides (Located fs result vars)
      (BlockTyped fs result vars b ∧ ((vars ++ b.bindings).map Prod.fst).Nodup)
      (Located fs result (vars ++ b.bindings))
  | .mk ss pos, hknown => by
    refine ((decides_checkAll vars ss hknown).bind_pure _).congr fun _ _ =>
      and_congr_left fun _ => ?_
    constructor
    · exact .mk
    · intro h
      cases h with
      | mk inner => exact inner

theorem decides_checkAll (vars : List (String × Ty)) : ∀ ss : List Stmt,
    (∀ b ∈ Stmt.bindingsAll ss, b.2 ≠ .unknown) →
    (checkAll (Stmt.toNodes ss)).Decides (Located fs result vars)
      (StmtsTyped fs result vars ss ∧ ((vars ++ Stmt.bindingsAll ss).map Prod.fst).Nodup)
      (Located fs result (vars ++ Stmt.bindingsAll ss))
  | [], _ => by
    rw [Stmt.bindingsAll, List.append_nil]
    refine (decides_pure ()).congr fun context hcontext => ?_
    exact ⟨fun _ => ⟨.nil, hcontext.agrees.nodup⟩, fun _ => trivial⟩
  | s :: ss, hknown => by
    obtain ⟨hs, hss⟩ := List.forall_mem_append.1 hknown
    rw [Stmt.bindingsAll, ← List.append_assoc]
    refine ((decides_check vars s hs).discard.bind fun _ =>
      decides_checkAll (vars ++ s.bindings) ss hss).congr fun _ _ => ?_
    rw [and_nodup_append_iff, List.append_assoc]
    refine and_congr_left fun _ => ⟨fun h => .cons h.1 h.2, fun h => ?_⟩
    cases h with
    | cons head tail => exact ⟨head, tail⟩

end

/-! ### Functions -/

theorem ne_unknown_of_mem_values {t : Ty} (h : t ∈ Ty.values) : t ≠ .unknown := by
  rintro rfl
  exact absurd h (by decide)

theorem ne_unknown_of_mem_results {t : Ty} (h : t ∈ Ty.results) : t ≠ .unknown := by
  rintro rfl
  exact absurd h (by decide)

/-- A function of the language is declared with a result. -/
theorem given?_of_mem_results {t : Ty} (h : t ∈ Ty.results) : t.given? = some t := by
  revert t
  decide

theorem decides_declareParams {ps : List Param} (hps : ∀ p ∈ ps, p.type ≠ .unknown)
    (vars : List (String × Ty)) :
    (declareParams ps).Decides (Located fs result vars)
      ((vars ++ ps.map fun p => (p.name, p.type)).map Prod.fst).Nodup
      (Located fs result (vars ++ ps.map fun p => (p.name, p.type))) := by
  induction ps generalizing vars with
  | nil =>
    rw [List.map_nil, List.append_nil]
    exact (decides_pure ()).congr fun _ hcontext => iff_of_true trivial hcontext.agrees.nodup
  | cons p ps ih =>
    obtain ⟨hp, hps⟩ := List.forall_mem_cons.1 hps
    rw [List.map_cons, List.append_cons]
    refine ((decides_declare hp rfl).bind fun _ => ih hps _).congr fun context hcontext => ?_
    -- that the first name is new is part of all names being different
    refine and_iff_right_of_imp fun hnodup => ?_
    rw [List.map_append] at hnodup
    exact (nodup_append_singleton_iff hcontext.agrees.nodup).1 hnodup.of_append_left

/-- An empty scope is opened for a function. -/
theorem Globals.agrees_openScope (h : Globals fs table.globals) {scope : String}
    (hscope : scope ≠ SymbolTable.globalName) :
    Agrees fs [] { table.openScope scope with current := scope } where
  globals := by
    rw [SymbolTable.openScope, SymbolTable.globals_put _ hscope]
    exact h
  current := hscope
  scope :=
    ⟨⟨scope, _, []⟩, SymbolTable.currentScope_eq (table.scope?_put ⟨scope, _, []⟩ hscope), rfl⟩
  nodup := List.nodup_nil
  known := by simp

/-- What is decided inside a function is decided by `inFunction` from outside it, where the
functions stay what they are. -/
theorem decides_inFunction {α : Type} (scope : String) {body : Checker α} {Q : Prop}
    (hbody : body.Decides (Located fs result []) Q (Located fs result vars))
    (hresult : result ≠ .unknown) (hgiven : result.given? = some result) :
    (inFunction scope result body).Decides
      (fun context => Agrees fs [] { context.table with current := scope }) Q
      (fun context => Globals fs context.table.globals) := by
  intro context hagrees
  obtain ⟨hyields, hdecided⟩ := hbody
    { context with table.current := scope, returnType := result.given? } ⟨hagrees, hgiven, hresult⟩
  constructor
  · intro hQ
    obtain ⟨a, after, ha⟩ := hyields hQ
    exact ⟨a, _, inFunction_yields_iff.2 ⟨after, ha, rfl⟩⟩
  · intro a context' h
    obtain ⟨after, ha, rfl⟩ := inFunction_yields_iff.1 h
    obtain ⟨hQ, hlocated⟩ := hdecided a after ha
    exact ⟨hQ, hlocated.agrees.globals⟩

theorem map_fst_parameters_append (f : Function) :
    (f.parameters ++ f.body.bindings).map Prod.fst = f.variables := by
  rw [Function.parameters, Function.variables, List.map_append, List.map_map,
    f.body.map_fst_bindings]
  rfl

/-- `enter` checks the body of a function in silence exactly if the function is `WellTyped`. -/
theorem decides_enter {scope : String} (hscope : scope ≠ SymbolTable.globalName) {f : Function}
    (hf : f.Shaped) :
    (enter scope f).Decides (fun context => Globals fs context.table.globals) (f.WellTyped fs)
      (fun context => Globals fs context.table.globals) := by
  have hparams : (declareParams f.params).Decides (Located fs f.result [])
      (f.parameters.map Prod.fst).Nodup (Located fs f.result f.parameters) :=
    decides_declareParams (fun p hp => ne_unknown_of_mem_values (hf.params p hp)) []
  have hbody : (check f.body.toNode).Decides (Located fs f.result f.parameters) _ _ :=
    decides_checkBlock f.parameters f.body
      fun b hb => ne_unknown_of_mem_values (hf.body.bindings b hb)
  have hinside := decides_inFunction scope (hparams.bind fun _ => hbody.discard)
    (ne_unknown_of_mem_results hf.result) (given?_of_mem_results hf.result)
  have hopen : (Pass.modify fun context =>
      { context with table := context.table.openScope scope } : Checker Unit).Decides
        (fun context => Globals fs context.table.globals) True
        (fun context => Agrees fs [] { context.table with current := scope }) :=
    decides_modify fun context hglobals => hglobals.agrees_openScope hscope
  refine (hopen.bind fun _ => hinside.bind_pure _).congr fun _ _ => ?_
  constructor
  · rintro ⟨-, -, htyped, hnodup⟩
    exact ⟨map_fst_parameters_append f ▸ hnodup, htyped⟩
  · rintro ⟨hnodup, htyped⟩
    rw [← map_fst_parameters_append] at hnodup
    refine ⟨trivial, ?_, htyped, hnodup⟩
    -- the parameters are the first of the names
    rw [List.map_append] at hnodup
    exact hnodup.of_append_left

/-- `declareFunction` passes in silence exactly if the name is new. -/
theorem declareFunction_yields_iff {name : String} {signature : Signature} {pos : Pos}
    {context context' : Context} {scope : String} :
    (declareFunction name signature pos).Yields context scope context' ↔
      name ∉ names context.table.globals ∧ scope = "function_" ++ name ∧
        context' =
          { context with
            table.globals := context.table.globals.insert
              ⟨name, signature.result, .function signature, pos⟩ } := by
  have hget : (Pass.get : Checker Context).Yields context context context := rfl
  rw [Yields, declareFunction, hget.bind_apply]
  by_cases hname : name ∈ names context.table.globals
  · rw [if_pos (find?_isSome_iff.2 hname)]
    exact iff_of_false not_report_bind_yields fun h => h.1 hname
  · rw [if_neg (mt find?_isSome_iff.1 hname)]
    constructor
    · intro h
      obtain ⟨hscope, -, hcontext⟩ := Outcome.mk.inj h
      exact ⟨hname, (Except.ok.inj hscope).symm, hcontext.symm⟩
    · rintro ⟨-, rfl, rfl⟩
      rfl

theorem Globals.names_eq {globals : Scope} (h : Globals fs globals) :
    names globals = fs.map Function.name := by
  have hmap := congrArg (List.map Prod.fst) h.entries
  rw [List.map_map, List.map_map] at hmap
  exact hmap

/-- The global scope is extended by a function with a new name. -/
theorem Globals.insert {globals : Scope} (h : Globals fs globals) {f : Function} (hf : f.Shaped)
    (hname : f.name ∉ fs.map Function.name) (pos : Pos) :
    Globals (fs ++ [f])
      (globals.insert ⟨f.name, f.result, .function ⟨f.params, f.result⟩, pos⟩) where
  entries := by
    rw [Scope.insert, List.map_append, List.map_append, h.entries]
    rfl
  nodup := by
    rw [List.map_append, List.map_singleton, ← List.concat_eq_append, List.nodup_concat]
    exact ⟨hname, h.nodup⟩
  results := List.forall_mem_append.2
    ⟨h.results, List.forall_mem_singleton.2 (ne_unknown_of_mem_results hf.result)⟩
  params := List.forall_mem_append.2
    ⟨h.params, List.forall_mem_singleton.2 fun p hp => ne_unknown_of_mem_values (hf.params p hp)⟩

/-- `check` passes a function in silence exactly if its name is new and it is `WellTyped`, with
itself among the functions that it may call. -/
theorem decides_check_function {f : Function} (hf : f.Shaped) :
    (check f.toNode).Decides (fun context => Globals fs context.table.globals)
      (f.name ∉ fs.map Function.name ∧ f.WellTyped (fs ++ [f]))
      (fun context => Globals (fs ++ [f]) context.table.globals) := by
  rw [check_function_eq]
  have henter : (enter ("function_" ++ f.name) f).Decides _ (f.WellTyped (fs ++ [f])) _ :=
    decides_enter (function_append_ne_globalName f.name) hf
  intro context hglobals
  constructor
  · rintro ⟨hname, htyped⟩
    have hfree : f.name ∉ names context.table.globals := hglobals.names_eq ▸ hname
    -- the function is declared before its body is checked, so it may call itself
    obtain ⟨a, context', ha⟩ := (henter
      { context with
        table.globals := context.table.globals.insert
          ⟨f.name, f.result, .function ⟨f.params, f.result⟩, f.pos⟩ }
      (hglobals.insert hf hname f.pos)).1 htyped
    refine ⟨a, context', yields_bind_iff.2 ⟨_, _, ?_, ha⟩⟩
    exact declareFunction_yields_iff.2 ⟨hfree, rfl, rfl⟩
  · intro a context' h
    obtain ⟨scope, context₁, hdeclare, ha⟩ := yields_bind_iff.1 h
    obtain ⟨hfree, rfl, rfl⟩ := declareFunction_yields_iff.1 hdeclare
    have hname : f.name ∉ fs.map Function.name := hglobals.names_eq ▸ hfree
    obtain ⟨htyped, hglobals'⟩ := (henter _ (hglobals.insert hf hname f.pos)).2 a context' ha
    exact ⟨⟨hname, htyped⟩, hglobals'⟩

/-! ### Programs -/

/-- What holds of every member of a list and those in front of it. -/
theorem forall_split_cons {P : List Function → Function → Prop} {f : Function}
    {gs : List Function} :
    (∀ before g after, f :: gs = before ++ g :: after → P before g) ↔
      P [] f ∧ ∀ before g after, gs = before ++ g :: after → P (f :: before) g := by
  constructor
  · intro h
    exact ⟨h [] f gs rfl, fun before g after hgs => h (f :: before) g after (by rw [hgs]; rfl)⟩
  · rintro ⟨hf, hgs⟩ before g after h
    cases before with
    | nil =>
      obtain ⟨rfl, -⟩ := List.cons.inj h
      exact hf
    | cons f' before =>
      obtain ⟨rfl, hsplit⟩ := List.cons.inj h
      exact hgs before g after hsplit

/-- `checkAll` passes functions in silence exactly if they have different names, and each is
`WellTyped` behind those in front of it. -/
theorem decides_checkAll_functions {gs : List Function} (hgs : ∀ g ∈ gs, g.Shaped)
    (fs : List Function) :
    (checkAll (gs.map Function.toNode)).Decides (fun context => Globals fs context.table.globals)
      (((fs ++ gs).map Function.name).Nodup ∧
        ∀ before g after, gs = before ++ g :: after → g.WellTyped (fs ++ before ++ [g]))
      (fun context => Globals (fs ++ gs) context.table.globals) := by
  -- by induction on the functions still to come; those in front may be called
  induction gs generalizing fs with
  | nil =>
    rw [List.append_nil]
    exact (decides_pure ()).congr fun _ hglobals => iff_of_true trivial ⟨hglobals.nodup, by simp⟩
  | cons f gs ih =>
    obtain ⟨hf, hgs⟩ := List.forall_mem_cons.1 hgs
    rw [List.append_cons]
    refine ((decides_check_function hf).discard.bind fun _ => ih hgs (fs ++ [f])).congr
      fun _ _ => ?_
    rw [forall_split_cons, List.append_nil]
    simp only [List.append_assoc, List.cons_append, List.nil_append]
    constructor
    · rintro ⟨⟨-, hf⟩, hnodup, hgs⟩
      exact ⟨hnodup, hf, hgs⟩
    · rintro ⟨hnodup, hf, hgs⟩
      refine ⟨⟨fun hmem => ?_, hf⟩, hnodup, hgs⟩
      rw [List.map_append, List.nodup_append] at hnodup
      exact hnodup.2.2 _ hmem _ (List.mem_cons_self ..) rfl

theorem globals_empty : Globals [] Context.empty.table.globals :=
  ⟨rfl, List.nodup_nil, by simp, by simp⟩

end Typing

/-- A program of `Shaped` functions in which nothing is found wrong is `WellTyped`. -/
theorem wellTyped_of_clean {p : Program} (hshaped : ∀ f ∈ p.functions, f.Shaped)
    (h : (analyze p).findings = []) : p.WellTyped := by
  obtain ⟨context, hyields⟩ := (findings_eq_nil_iff_yields p).1 h
  obtain ⟨⟨hnodup, htyped⟩, -⟩ := (Typing.decides_checkAll_functions hshaped [] Typing.Context.empty
    Typing.globals_empty).2 () context hyields
  exact ⟨hnodup, htyped⟩

/-- Nothing is found wrong with the program of a source text exactly if it is `WellTyped`. -/
theorem findings_eq_nil_iff_wellTyped (source : String) :
    (analyze (parse (scan source).1).1).findings = [] ↔ (parse (scan source).1).1.WellTyped := by
  obtain ⟨hyields, hdecided⟩ := Typing.decides_checkAll_functions (shaped_parse source) []
    Typing.Context.empty Typing.globals_empty
  rw [findings_eq_nil_iff_yields]
  constructor
  · rintro ⟨context, h⟩
    obtain ⟨⟨hnodup, htyped⟩, -⟩ := hdecided () context h
    exact ⟨hnodup, htyped⟩
  · rintro ⟨hnodup, htyped⟩
    obtain ⟨_, context, h⟩ := hyields ⟨hnodup, htyped⟩
    exact ⟨context, h⟩

end Tricode
