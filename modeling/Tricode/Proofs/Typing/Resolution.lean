import Tricode.Proofs.Names
import Tricode.Proofs.Pass
import Tricode.Typing

/-!
# Names in checked programs

The checker never fails on the tree of a program, and where it finds nothing wrong, every name is
what it is used as (`analyze_apply`): the variables read and assigned in a function are its own,
only functions are called, and no two functions have the same name.

Inside a function the current scope holds variables of that function only, and the global scope
holds functions only (`Inside`). Both are kept by every declaration.
-/

namespace Tricode

/-- The expression calls names only, and reads and assigns no variables but `vars`. -/
def Expr.Resolved (vars : List String) (e : Expr) : Prop :=
  ∀ part ∈ e.parts, part.CallsName ∧ ∀ x ∈ part.holder?, x ∈ vars

/-! ### Symbol tables -/

namespace SymbolTable

theorem find?_replace {scope : Scope} {scopes : List Scope}
    (h : scopes.any (fun s => s.name == scope.name) = true) :
    (scopes.map fun s => if s.name == scope.name then scope else s).find?
      (fun s => s.name == scope.name) = some scope := by
  induction scopes with
  | nil => simp at h
  | cons s scopes ih =>
    by_cases hs : s.name = scope.name
    · simp [hs]
    · have hrest : scopes.any (fun s => s.name == scope.name) = true := by simpa [hs] using h
      simpa [hs] using ih hrest

/-- A scope that was `put` into a table is found there. -/
theorem scope?_put (t : SymbolTable) (scope : Scope) (h : scope.name ≠ globalName) :
    (t.put scope).scope? scope.name = some scope := by
  have hglobal : (scope.name == globalName) = false := by simpa using h
  by_cases hany : t.locals.any (fun s => s.name == scope.name) = true
  · simp only [put, hglobal, hany, scope?, Bool.false_eq_true, if_false, if_true]
    exact find?_replace hany
  · simp only [put, hglobal, hany, scope?, Bool.false_eq_true, if_false]
    rw [Bool.not_eq_true, List.any_eq_false] at hany
    rw [List.find?_append, List.find?_eq_none.2 (by simpa using hany)]
    simp

/-- Putting a local scope keeps the global one. -/
theorem globals_put (t : SymbolTable) {scope : Scope} (h : scope.name ≠ globalName) :
    (t.put scope).globals = t.globals := by
  have hglobal : (scope.name == globalName) = false := by simpa using h
  simp only [put, hglobal, Bool.false_eq_true, if_false]
  split <;> rfl

theorem current_put (t : SymbolTable) (scope : Scope) : (t.put scope).current = t.current := by
  unfold put
  split
  · rfl
  · split <;> rfl

/-- The current scope has the name of the current scope, unless it is the global one. -/
theorem name_of_currentScope {t : SymbolTable} {scope : Scope} (h : t.currentScope = .ok scope)
    (hcurrent : t.current ≠ globalName) : scope.name = t.current := by
  have hglobal : (t.current == globalName) = false := by simpa using hcurrent
  have hscope : t.locals.find? (fun s => s.name == t.current) = some scope := by
    simp only [currentScope, scope?, hglobal, Bool.false_eq_true, if_false] at h
    split at h
    · next hfind => rw [hfind, Except.ok.inj h]
    · cases h
  simpa using List.find?_some hscope

theorem currentScope_eq {t : SymbolTable} {scope : Scope} (h : t.scope? t.current = some scope) :
    t.currentScope = .ok scope := by
  rw [currentScope, h]

end SymbolTable

namespace Typing

open Pass

/-- The table inside a function with the variables `vars`, below the global scope `globals`. -/
structure Inside (globals : Scope) (vars : List String) (table : SymbolTable) : Prop where
  globals_eq : table.globals = globals
  functions : ∀ s ∈ globals.symbols, s.signature?.isSome = true
  current : table.current ≠ SymbolTable.globalName
  scope : ∃ scope, table.currentScope = .ok scope ∧ ∀ s ∈ scope.symbols, s.name ∈ vars

variable {globals : Scope} {vars : List String} {table : SymbolTable}

/-- `lookup` does not fail, and finds a variable or a function. -/
theorem Inside.lookup (h : Inside globals vars table) (x : String) :
    ∃ symbol?, table.lookup x = .ok symbol? ∧
      ∀ symbol ∈ symbol?, symbol.signature? = none → x ∈ vars := by
  obtain ⟨scope, hscope, hvars⟩ := h.scope
  refine ⟨(scope.find? x).or (table.globals.find? x), ?_, fun symbol hsymbol hsignature => ?_⟩
  · simp only [SymbolTable.lookup, hscope]
    rfl
  · -- a symbol without a signature cannot come from the global scope
    rcases Option.or_eq_some_iff.1 hsymbol with hlocal | ⟨-, hglobal⟩
    · have hname : symbol.name = x := by simpa using List.find?_some hlocal
      exact hname ▸ hvars symbol (List.mem_of_find?_eq_some hlocal)
    · rw [h.globals_eq] at hglobal
      have hfunction := h.functions symbol (List.mem_of_find?_eq_some hglobal)
      rw [hsignature] at hfunction
      cases hfunction

variable {σ ε : Type}

theorem ensures_report {inv : σ → Prop} (cause : TypingCause) (pos : Pos) (Q : Prop) :
    (report cause pos : Pass σ (Finding TypingCause) ε Unit).Ensures inv Q :=
  ensures_write _ Q

theorem ensures_require {inv : σ → Prop} (holds : Bool) (cause : TypingCause) (pos : Pos) :
    (require holds cause pos : Pass σ (Finding TypingCause) ε Unit).Ensures inv True := by
  unfold require
  split
  · exact ensures_pure ()
  · exact ensures_report cause pos True

/-! ### Expressions -/

/-- The type of a name that has to be a variable: one that stands for a value, or that is assigned
to. -/
def variableType (table : SymbolTable) (x : String) (pos : Pos) (undefined misused : TypingCause) :
    Inference Ty := do
  match ← Pass.ofExcept (table.lookup x) with
  | none => do
    report undefined pos
    pure .unknown
  | some symbol =>
    if symbol.signature?.isSome then do
      report misused pos
      pure .unknown
    else pure symbol.type

theorem nameType_eq (table : SymbolTable) (x : String) (pos : Pos) :
    nameType table x pos =
      variableType table x pos (.undefinedIdentifier x) (.functionAsVariable x) := rfl

theorem targetType_eq (table : SymbolTable) (x : String) (pos : Pos) :
    targetType table x pos =
      variableType table x pos (.undefinedIdentifier x) (.assignToFunction x) := rfl

theorem ensures_unaryType (op : String) (t : Ty) (pos : Pos) :
    (unaryType op t pos).Ensures (fun _ => True) True := by
  unfold unaryType
  split
  · exact (ensures_require _ _ _).bind_pure _
  split
  · exact (ensures_require _ _ _).bind_pure _
  · exact (ensures_report _ _ True).bind_pure _

theorem ensures_binaryType (op : String) (l r : Ty) (pos : Pos) :
    (binaryType op l r pos).Ensures (fun _ => True) True := by
  unfold binaryType
  have hrequire : ∀ (holds : Bool) (cause : TypingCause) (t : Ty),
      (require holds cause pos >>= fun _ => pure t : Inference Ty).Ensures (fun _ => True) True :=
    fun holds cause t => (ensures_require holds cause pos).bind_pure fun _ => t
  split
  · dsimp only
    split
    · exact ensures_pure _
    · exact hrequire _ _ _
  split
  · exact hrequire _ _ _
  split
  · exact hrequire _ _ _
  split
  · exact hrequire _ _ _
  · exact (ensures_report _ _ True).bind_pure _

theorem ensures_checkArguments (name : String) (index : Nat) (args : List (Pos × Ty × Ty)) :
    (checkArguments name index args).Ensures (fun _ => True) True := by
  induction args generalizing index with
  | nil => exact ensures_pure ()
  | cons arg args ih =>
    exact ((ensures_require _ _ _).bind fun _ => ih (index + 1)).mono fun _ => trivial

theorem ensures_callType (name : String) (signature : Signature) (positions : List Pos)
    (types : List Ty) (pos : Pos) :
    (callType name signature positions types pos).Ensures (fun _ => True) True := by
  unfold callType
  dsimp only
  split
  · exact (ensures_report _ _ True).bind_pure _
  · exact (ensures_checkArguments _ _ _).bind_pure _

section

variable (htable : Inside globals vars table)

include htable in
/-- Where `variableType` makes no finding, the name is a variable. -/
theorem ensures_variable (x : String) (pos : Pos) (undefined misused : TypingCause) :
    (variableType table x pos undefined misused).Ensures (fun _ => True) (x ∈ vars) := by
  obtain ⟨symbol?, hlookup, hvars⟩ := htable.lookup x
  rw [variableType, hlookup, ofExcept_ok, pure_bind]
  cases symbol? with
  | none => exact (ensures_report _ _ (x ∈ vars)).bind_pure _
  | some symbol =>
    dsimp only
    split
    · exact (ensures_report _ _ (x ∈ vars)).bind_pure _
    · next hsignature =>
      exact (ensures_pure _).mono fun _ => hvars symbol rfl (by simpa using hsignature)

include htable in
/-- Where `calleeSignature` makes no finding, a name is called. -/
theorem ensures_calleeSignature (f : Expr) (pos : Pos) :
    (calleeSignature table f.toNode pos).Ensures (fun _ => True) (∃ x p, f = .ident x p) := by
  cases f with
  | ident x p =>
    obtain ⟨symbol?, hlookup, -⟩ := htable.lookup x
    rw [Expr.toNode, calleeSignature, hlookup, ofExcept_ok, pure_bind]
    refine Ensures.mono (Q := True) ?_ fun _ => ⟨x, p, rfl⟩
    cases symbol? with
    | none => exact (ensures_report _ _ True).bind_pure _
    | some symbol =>
      dsimp only
      split
      · exact ensures_pure _
      · exact (ensures_report _ _ True).bind_pure _
  | _ =>
    exact (ensures_report _ _ _).bind_pure _

mutual

/-- Where `infer` makes no finding, the expression calls names only and has the function's variables
only. -/
theorem ensures_infer (htable : Inside globals vars table) : ∀ e : Expr,
    (infer table e.toNode).Ensures (fun _ => True) (e.Resolved vars)
  | .literal kind text pos =>
    (ensures_pure _).mono fun _ => List.forall_mem_singleton.2 ⟨trivial, nofun⟩
  | .ident x pos => by
    rw [Expr.toNode, infer, nameType_eq]
    exact (ensures_variable htable x pos _ _).mono fun hx =>
      List.forall_mem_singleton.2 ⟨trivial, fun y hy => Option.some.inj hy ▸ hx⟩
  | .unary op e pos =>
    ((ensures_infer htable e).bind fun t => ensures_unaryType op t pos).mono fun h =>
      List.forall_mem_cons.2 ⟨⟨trivial, nofun⟩, h.1⟩
  | .binary op l r pos =>
    ((ensures_infer htable l).bind fun t => (ensures_infer htable r).bind fun t' =>
      ensures_binaryType op t t' pos).mono fun h =>
        List.forall_mem_cons.2 ⟨⟨trivial, nofun⟩, List.forall_mem_append.2 ⟨h.1, h.2.1⟩⟩
  | .call f args pos => by
    -- what is called is a name, and the arguments are resolved
    refine Ensures.mono (Q := (∃ x p, f = .ident x p) ∧ (∀ e ∈ args, e.Resolved vars) ∧ True)
      ((ensures_calleeSignature htable f pos).bind fun target? =>
        (ensures_inferAll htable args).bind fun types => ?_) fun h => ?_
    · cases target? with
      | none => exact ensures_pure _
      | some target => exact ensures_callType _ _ _ _ _
    · refine List.forall_mem_cons.2 ⟨⟨h.1, nofun⟩, fun part hpart => ?_⟩
      obtain ⟨e, he, hpart⟩ := Expr.mem_partsAll.1 hpart
      exact h.2.1 e he part hpart
  | .assign x e pos => by
    have htarget : (targetType table x pos).Ensures (fun _ => True) (x ∈ vars) := by
      rw [targetType_eq]
      exact ensures_variable htable x pos _ _
    refine (htarget.bind fun t => (ensures_infer htable e).bind fun t' =>
      (ensures_require _ _ _).bind_pure _).mono fun h => ?_
    exact List.forall_mem_cons.2 ⟨⟨trivial, fun y hy => Option.some.inj hy ▸ h.1⟩, h.2.1⟩

theorem ensures_inferAll (htable : Inside globals vars table) : ∀ es : List Expr,
    (inferAll table (Expr.toNodes es)).Ensures (fun _ => True) (∀ e ∈ es, e.Resolved vars)
  | [] => (ensures_pure _).mono fun _ => by simp
  | e :: es =>
    ((ensures_infer htable e).bind fun t => (ensures_inferAll htable es).bind_pure _).mono fun h =>
      List.forall_mem_cons.2 h

end

end

/-! ### Statements -/

/-- The context inside a function. -/
def InFunction (globals : Scope) (vars : List String) (context : Context) : Prop :=
  Inside globals vars context.table

/-- `typeOf` leaves the context as it is. -/
theorem typeOf_apply (n : Node) (context : Context) :
    typeOf n context =
      ⟨(infer context.table n ()).value, (infer context.table n ()).log, context⟩ := by
  have hget : (Pass.get : Checker Context).Yields context context context := rfl
  rw [typeOf, hget.bind_apply]
  rfl

/-- An expression that is typed in silence is `Resolved`. -/
theorem ensures_typeOf (e : Expr) :
    (typeOf e.toNode).Ensures (InFunction globals vars) (e.Resolved vars) := by
  intro context h
  obtain ⟨hvalue, -, hlog⟩ := ensures_infer h e () trivial
  exact ⟨hvalue, h, hlog⟩

/-- A table stays `Inside` a function when its current scope is extended by one of the variables. -/
theorem Inside.put_insert (h : Inside globals vars table) {scope : Scope}
    (hscope : table.currentScope = .ok scope) (hvars : ∀ s ∈ scope.symbols, s.name ∈ vars)
    {symbol : Symbol} (hsymbol : symbol.name ∈ vars) :
    Inside globals vars (table.put (scope.insert symbol)) := by
  have hname : scope.name = table.current := SymbolTable.name_of_currentScope hscope h.current
  have hlocal : (scope.insert symbol).name ≠ SymbolTable.globalName := hname ▸ h.current
  refine ⟨?_, h.functions, ?_, scope.insert symbol, SymbolTable.currentScope_eq ?_, ?_⟩
  · rw [SymbolTable.globals_put _ hlocal]
    exact h.globals_eq
  · rw [SymbolTable.current_put]
    exact h.current
  · rw [SymbolTable.current_put, ← hname]
    exact SymbolTable.scope?_put _ _ hlocal
  · exact List.forall_mem_append.2 ⟨hvars, List.forall_mem_singleton.2 hsymbol⟩

/-- A name of the function is declared in the scope of the function. -/
theorem ensures_declare {x : String} (hx : x ∈ vars) (type : Ty) (role : Role) (pos : Pos) :
    (declare x type role pos).Ensures (InFunction globals vars) True := by
  intro context h
  obtain ⟨scope, hscope, hvars⟩ := h.scope
  have hget : (Pass.get : Checker Context).Yields context context context := rfl
  rw [declare, hget.bind_apply, hscope, ofExcept_ok, pure_bind]
  -- a variable that is declared twice is reported, and the scope stays as it is
  by_cases hfound : (scope.find? x).isSome = true
  · rw [if_pos hfound]
    exact ensures_report _ _ True context h
  · rw [if_neg hfound]
    exact ⟨⟨(), rfl⟩, h.put_insert hscope hvars hx, fun _ => trivial⟩

theorem ensures_declareParams {ps : List Param} (hps : ∀ p ∈ ps, p.name ∈ vars) :
    (declareParams ps).Ensures (InFunction globals vars) True := by
  induction ps with
  | nil => exact ensures_pure ()
  | cons p ps ih =>
    obtain ⟨hp, hps⟩ := List.forall_mem_cons.1 hps
    exact ((ensures_declare hp _ _ _).bind fun _ => ih hps).mono fun _ => trivial

theorem ensures_checkCondition (e : Expr) (cause : TypingCause) :
    (checkCondition e.toNode cause).Ensures (InFunction globals vars) (e.Resolved vars) :=
  ((ensures_typeOf e).bind fun _ => ensures_require _ _ _).mono And.left

/-- The value of a return statement that passes in silence is `Resolved`. -/
theorem ensures_checkReturn (value : Option Expr) (pos : Pos) :
    (checkReturn (.ofExpr? value) pos).Ensures (InFunction globals vars)
      (∀ e ∈ value, e.Resolved vars) := by
  refine ensures_get_bind fun context _ => ?_
  cases value with
  | none =>
    refine Ensures.mono (Q := True) ?_ nofun
    split
    · exact ((ensures_report _ _ True).bind fun _ => ensures_pure ()).mono And.left
    · exact ensures_require _ _ _
  | some e =>
    rw [Node.ofExpr?, e.isAbsent_toNode]
    refine Ensures.mono (Q := e.Resolved vars) ?_ fun h e' he' => Option.some.inj he' ▸ h
    split
    · exact ((ensures_report _ _ True).bind fun _ => (ensures_typeOf e).discard).mono And.right
    · exact ((ensures_typeOf e).bind fun _ => ensures_require _ _ _).mono And.left

mutual

/-- Where `check` makes no finding, a statement's expressions have the function's variables only. -/
theorem ensures_check : ∀ s : Stmt, (∀ x ∈ s.declared, x ∈ vars) →
    (check s.toNode).Ensures (InFunction globals vars) (∀ e ∈ s.exprs, e.Resolved vars)
  | .expr e pos, _ =>
    ((ensures_typeOf e).discard.bind_pure _).mono List.forall_mem_singleton.2
  | .declare type x none pos, hdeclared => by
    have hx : x ∈ vars := hdeclared x (by simp [Stmt.declared])
    refine Ensures.mono (Q := True) ?_ fun _ => by simp [Stmt.exprs]
    exact (ensures_declare hx type .var pos).bind_pure _
  | .declare type x (some e) pos, hdeclared => by
    have hx : x ∈ vars := hdeclared x (by simp [Stmt.declared])
    refine Ensures.mono (Q := True ∧ e.Resolved vars ∧ True) ?_ fun h => by
      simpa [Stmt.exprs] using h.2.1
    rw [Stmt.toNode, check]
    refine (ensures_declare hx type .var pos).bind fun _ => ?_
    rw [Node.ofExpr?, e.isAbsent_toNode]
    exact (ensures_typeOf e).bind fun t => (ensures_require _ _ _).bind_pure _
  | .ifThen c b pos, hdeclared =>
    ((ensures_checkCondition c _).bind fun _ =>
      (ensures_checkBlock b hdeclared).discard.bind_pure _).mono List.forall_mem_cons.2
  | .ifElse c b a pos, hdeclared => by
    obtain ⟨hb, ha⟩ := List.forall_mem_append.1 hdeclared
    refine Ensures.mono (Q := c.Resolved vars ∧ (∀ e ∈ b.exprs, e.Resolved vars) ∧
      ∀ e ∈ a.exprs, e.Resolved vars) ?_ fun h =>
        List.forall_mem_cons.2 ⟨h.1, List.forall_mem_append.2 h.2⟩
    rw [Stmt.toNode, check]
    refine (ensures_checkCondition c _).bind fun _ =>
      (ensures_checkBlock b hb).discard.bind fun _ => ?_
    rw [a.isAbsent_toNode]
    exact (ensures_checkBlock a ha).discard.bind_pure _
  | .loop c b pos, hdeclared =>
    ((ensures_checkCondition c _).bind fun _ =>
      (ensures_checkBlock b hdeclared).discard.bind_pure _).mono List.forall_mem_cons.2
  | .ret value pos, _ =>
    ((ensures_checkReturn value pos).bind_pure _).mono fun h e he =>
      h e (Option.mem_toList.1 he)

theorem ensures_checkBlock : ∀ b : Block, (∀ x ∈ b.declared, x ∈ vars) →
    (check b.toNode).Ensures (InFunction globals vars) (∀ e ∈ b.exprs, e.Resolved vars)
  | .mk ss _, hdeclared => (ensures_checkAll ss hdeclared).bind_pure _

theorem ensures_checkAll : ∀ ss : List Stmt, (∀ x ∈ Stmt.declaredAll ss, x ∈ vars) →
    (checkAll (Stmt.toNodes ss)).Ensures (InFunction globals vars)
      (∀ e ∈ Stmt.exprsAll ss, e.Resolved vars)
  | [], _ => (ensures_pure ()).mono fun _ => by simp [Stmt.exprsAll]
  | s :: ss, hdeclared => by
    obtain ⟨hs, hss⟩ := List.forall_mem_append.1 hdeclared
    exact ((ensures_check s hs).discard.bind fun _ => ensures_checkAll ss hss).mono
      List.forall_mem_append.2

end

/-! ### Functions -/

theorem checkAll_append (ns ms : List Node) :
    checkAll (ns ++ ms) = checkAll ns >>= fun _ => checkAll ms := by
  induction ns with
  | nil => rfl
  | cons n ns ih =>
    rw [List.cons_append, checkAll, checkAll, ih, bind_assoc]

/-- The names declared in a scope. -/
def names (s : Scope) : List String := s.symbols.map Symbol.name

/-- The scope holds functions only. -/
def OnlyFunctions (s : Scope) : Prop :=
  ∀ symbol ∈ s.symbols, symbol.signature?.isSome = true

theorem find?_isSome_iff {s : Scope} {x : String} : (s.find? x).isSome = true ↔ x ∈ names s := by
  rw [Scope.find?, List.find?_isSome, names, List.mem_map]
  simp only [beq_iff_eq]

theorem mapM_asParam (ps : List Param) : (ps.map Param.toNode).mapM Node.asParam = .ok ps := by
  induction ps with
  | nil => rfl
  | cons p ps ih =>
    rw [List.map_cons, List.mapM_cons, ih]
    rfl

theorem function_append_ne_globalName (suffix : String) :
    "function_" ++ suffix ≠ SymbolTable.globalName := by
  intro h
  have hlists := congrArg String.toList h
  rw [String.toList_append] at hlists
  exact absurd (List.cons.inj hlists).1 (by decide)

/-- `declareFunction` declares a function once, or makes a finding. -/
theorem declareFunction_apply (name : String) (signature : Signature) (pos : Pos)
    (context : Context) (h : OnlyFunctions context.table.globals) :
    ∃ scope log context', declareFunction name signature pos context = ⟨.ok scope, log, context'⟩ ∧
      scope ≠ SymbolTable.globalName ∧ OnlyFunctions context'.table.globals ∧
      (log = [] → name ∉ names context.table.globals ∧
        names context'.table.globals = names context.table.globals ++ [name]) := by
  have hget : (Pass.get : Checker Context).Yields context context context := rfl
  rw [declareFunction, hget.bind_apply]
  by_cases hfound : (context.table.globals.find? name).isSome = true
  · -- a second function of the name is checked in a scope of its own
    rw [if_pos hfound]
    refine ⟨_, _, _, rfl, ?_, h, nofun⟩
    simp only [String.append_assoc]
    exact function_append_ne_globalName _
  · rw [if_neg hfound]
    refine ⟨_, _, _, rfl, function_append_ne_globalName name, ?_, fun _ =>
      ⟨mt find?_isSome_iff.2 hfound, ?_⟩⟩
    · exact List.forall_mem_append.2 ⟨h, List.forall_mem_singleton.2 rfl⟩
    · simp [names, Scope.insert]

/-- What happens in the scope of a function once the function is declared. -/
def enter (scope : String) (f : Function) : Checker Ty := do
  Pass.modify fun context => { context with table := context.table.openScope scope }
  inFunction scope f.result do
    declareParams f.params
    discard (check f.body.toNode)
  pure .void

/-- To `check` a function is to declare it, and then to check its body in a scope. -/
theorem check_function_eq (f : Function) :
    check f.toNode =
      declareFunction f.name ⟨f.params, f.result⟩ f.pos >>= fun scope => enter scope f := by
  rw [Function.toNode, check, mapM_asParam, ofExcept_ok, pure_bind]
  rfl

theorem inFunction_apply {α : Type} {scope : String} {result : Ty} {body : Checker α}
    (context : Context) {after : Context} {a : α} {log : List (Finding TypingCause)}
    (h : body { context with table.current := scope, returnType := result.given? } =
      ⟨.ok a, log, after⟩) :
    inFunction scope result body context =
      ⟨.ok a, log,
        { after with
          table.current := context.table.current
          returnType := context.returnType }⟩ := by
  rw [inFunction, h]

/-- `inFunction` checks the body, and behind it the scope and the return type are what they were. -/
theorem inFunction_yields_iff {α : Type} {scope : String} {result : Ty} {body : Checker α}
    {context context' : Context} {a : α} :
    (inFunction scope result body).Yields context a context' ↔
      ∃ after,
        body.Yields { context with table.current := scope, returnType := result.given? } a after ∧
          context' =
            { after with
              table.current := context.table.current
              returnType := context.returnType } := by
  constructor
  · intro h
    cases hr : body { context with table.current := scope, returnType := result.given? } with
    | mk value log after =>
      rw [Yields, inFunction, hr, Outcome.mk.injEq] at h
      obtain ⟨rfl, rfl, rfl⟩ := h
      exact ⟨after, hr, rfl⟩
  · rintro ⟨after, hbody, rfl⟩
    exact inFunction_apply context hbody

/-- `enter` checks the body of a function without touching the global scope. -/
theorem enter_apply {scope : String} (hscope : scope ≠ SymbolTable.globalName) (f : Function)
    (context : Context) (h : OnlyFunctions context.table.globals) :
    ∃ log context', enter scope f context = ⟨.ok .void, log, context'⟩ ∧
      context'.table.globals = context.table.globals ∧
      (log = [] → ∀ e ∈ f.body.exprs, e.Resolved f.variables) := by
  have hopen : Inside context.table.globals f.variables
      { context.table.openScope scope with current := scope } :=
    ⟨SymbolTable.globals_put _ hscope, h, hscope, ⟨scope, some SymbolTable.globalName, []⟩,
      SymbolTable.currentScope_eq (context.table.scope?_put ⟨scope, _, []⟩ hscope), by simp⟩
  -- the variables of the function are its parameters and what its body declares
  have hbody : (do
      declareParams f.params
      discard (check f.body.toNode) : Checker Unit).Ensures
        (InFunction context.table.globals f.variables)
        (True ∧ ∀ e ∈ f.body.exprs, e.Resolved f.variables) :=
    (ensures_declareParams fun p hp => List.mem_append_left _ (List.mem_map_of_mem hp)).bind
      fun _ => (ensures_checkBlock f.body fun x hx => List.mem_append_right _ hx).discard
  obtain ⟨⟨u, hvalue⟩, hinside, hlog⟩ := hbody ⟨_, f.result.given?, context.declarations⟩ hopen
  have hrun := inFunction_apply { context with table := context.table.openScope scope }
    (Outcome.eq_mk hvalue rfl rfl)
  exact ⟨_, _, bind_eq rfl (bind_eq_of_silent hrun rfl), hinside.globals_eq,
    fun hnil => (hlog hnil).2⟩

/-- Checking a function does not fail; without a finding its name is new and its variables are its
own. -/
theorem check_function_apply (f : Function) (context : Context)
    (h : OnlyFunctions context.table.globals) :
    ∃ log context', check f.toNode context = ⟨.ok .void, log, context'⟩ ∧
      OnlyFunctions context'.table.globals ∧
      (log = [] → f.name ∉ names context.table.globals ∧
        names context'.table.globals = names context.table.globals ++ [f.name] ∧
        ∀ e ∈ f.body.exprs, e.Resolved f.variables) := by
  obtain ⟨scope, log, context₁, hdeclare, hscope, honly, hname⟩ :=
    declareFunction_apply f.name ⟨f.params, f.result⟩ f.pos context h
  obtain ⟨log', context₂, henter, hglobals, hexprs⟩ := enter_apply hscope f context₁ honly
  refine ⟨log ++ log', context₂, ?_, hglobals ▸ honly, fun hnil => ?_⟩
  · rw [check_function_eq]
    exact bind_eq hdeclare henter
  · obtain ⟨hnil, hnil'⟩ := List.append_eq_nil_iff.1 hnil
    exact ⟨(hname hnil).1, hglobals ▸ (hname hnil).2, hexprs hnil'⟩

/-- Checking functions does not fail; without a finding they have different names, and each has its
own variables only. -/
theorem checkAll_functions (fs : List Function) (context : Context)
    (h : OnlyFunctions context.table.globals) :
    ∃ log context', checkAll (fs.map Function.toNode) context = ⟨.ok (), log, context'⟩ ∧
      (log = [] → (names context.table.globals).Nodup →
        (names context.table.globals ++ fs.map Function.name).Nodup ∧
          ∀ f ∈ fs, ∀ e ∈ f.body.exprs, e.Resolved f.variables) := by
  induction fs generalizing context with
  | nil => exact ⟨[], context, rfl, fun _ hnodup => ⟨by simpa using hnodup, by simp⟩⟩
  | cons f fs ih =>
    obtain ⟨log, context₁, hcheck, honly, hf⟩ := check_function_apply f context h
    obtain ⟨log', context₂, hrest, hfs⟩ := ih context₁ honly
    refine ⟨log ++ log', context₂, bind_eq (discard_eq hcheck) hrest, fun hnil hnodup => ?_⟩
    obtain ⟨hnil, hnil'⟩ := List.append_eq_nil_iff.1 hnil
    obtain ⟨hnew, hnames, hexprs⟩ := hf hnil
    -- the name of the first function is new, and then those of the others are new to all of them
    have hnodup₁ : (names context₁.table.globals).Nodup := by
      rw [hnames, List.nodup_append]
      exact ⟨hnodup, by simp, by simpa using fun x hx => ne_of_mem_of_not_mem hx hnew⟩
    obtain ⟨hnodup₂, hexprs'⟩ := hfs hnil' hnodup₁
    rw [hnames, List.append_assoc] at hnodup₂
    exact ⟨hnodup₂, List.forall_mem_cons.2 ⟨hexprs, hexprs'⟩⟩

end Typing

/-- `analyze` does not fail. In a program without findings no two functions have the same name, only
functions are called, and the variables in a function are its own. -/
theorem analyze_apply (p : Program) :
    (analyze p).fault = none ∧
      ((analyze p).findings = [] → (p.functions.map Function.name).Nodup ∧
        ∀ f ∈ p.functions, ∀ e ∈ f.body.exprs, e.Resolved f.variables) := by
  obtain ⟨log, context, hcheck, hclean⟩ :=
    Typing.checkAll_functions p.functions .empty (by intro symbol hsymbol; cases hsymbol)
  have hprogram : Typing.check p.toNode .empty = ⟨.ok .void, log, context⟩ :=
    Pass.bind_eq_of_silent hcheck rfl
  simp only [analyze, hprogram, true_and]
  exact fun hnil => hclean hnil (by simp [Typing.names, Typing.Context.empty, SymbolTable.empty])

/-- `analyze` is the run of `checkAll` over the functions. -/
theorem analyze_eq {p : Program} {log : List (Finding TypingCause)} {context : Typing.Context}
    (h : Typing.checkAll (p.functions.map Function.toNode) .empty = ⟨.ok (), log, context⟩) :
    analyze p = ⟨context.table, log, none⟩ := by
  have hprogram : Typing.check p.toNode .empty = ⟨.ok .void, log, context⟩ :=
    Pass.bind_eq_of_silent h rfl
  rw [analyze, hprogram]

/-- `checkAll` never fails, so `analyze` finds nothing exactly if it runs in silence. -/
theorem findings_eq_nil_iff_yields (p : Program) :
    (analyze p).findings = [] ↔
      ∃ context, (Typing.checkAll (p.functions.map Function.toNode)).Yields .empty () context := by
  obtain ⟨log, context, hcheck, -⟩ :=
    Typing.checkAll_functions p.functions .empty (by intro symbol hsymbol; cases hsymbol)
  simp only [analyze_eq hcheck, Pass.Yields, hcheck, Outcome.mk.injEq, true_and, exists_and_left,
    exists_eq', and_true]

end Tricode
