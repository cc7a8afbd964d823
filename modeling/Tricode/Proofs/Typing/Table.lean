import Tricode.Proofs.Typing.Acceptance
import Tricode.Proofs.Typing.Findings
import Tricode.Symbol.Listing

/-!
# The symbol table of a program

The checker reports and declares in one walk, but what it declares does not depend on what it
reports: inside a function every declaration adds a symbol to the scope of the function, unless the
name is taken (`adds_check`). So the scope of a function is put together from its parameters and
from what its body declares, whatever is wrong with the body. And what is reported about the body
depends on the global scope only, whatever scopes of other functions the table holds (`enter_eq`).

In a program without findings no name is taken, and the whole table can be read off the program
(`table_of_clean`).
-/

namespace Tricode

/-! ### What a program declares -/

mutual

/-- The symbols that a statement declares, in the order of the text. -/
def Stmt.symbols : Stmt → List Symbol
  | .declare t x _ pos => [⟨x, t, .var, pos⟩]
  | .ifThen _ b _ => b.symbols
  | .ifElse _ b a _ => b.symbols ++ a.symbols
  | .loop _ b _ => b.symbols
  | _ => []

/-- The symbols that a block declares. -/
def Block.symbols : Block → List Symbol
  | .mk ss _ => Stmt.symbolsAll ss

/-- The symbols that statements declare. -/
def Stmt.symbolsAll : List Stmt → List Symbol
  | [] => []
  | s :: ss => s.symbols ++ Stmt.symbolsAll ss

end

mutual

/-- The symbols of a statement have the names that it declares. -/
theorem Stmt.map_name_symbols : ∀ s : Stmt, s.symbols.map Symbol.name = s.declared
  | .expr .. => rfl
  | .declare .. => rfl
  | .ifThen _ b _ => b.map_name_symbols
  | .ifElse _ b a _ => by
    rw [Stmt.symbols, Stmt.declared, List.map_append, b.map_name_symbols, a.map_name_symbols]
  | .loop _ b _ => b.map_name_symbols
  | .ret .. => rfl

theorem Block.map_name_symbols : ∀ b : Block, b.symbols.map Symbol.name = b.declared
  | .mk ss _ => Stmt.map_name_symbolsAll ss

theorem Stmt.map_name_symbolsAll : ∀ ss : List Stmt,
    (Stmt.symbolsAll ss).map Symbol.name = Stmt.declaredAll ss
  | [] => rfl
  | s :: ss => by
    rw [Stmt.symbolsAll, Stmt.declaredAll, List.map_append, s.map_name_symbols,
      Stmt.map_name_symbolsAll ss]

end

namespace Scope

/-- Adds a symbol unless its name is taken. -/
def add (s : Scope) (symbol : Symbol) : Scope :=
  if (s.find? symbol.name).isSome then s else s.insert symbol

/-- Adds symbols from left to right. The first symbol of a name wins. -/
def addAll (s : Scope) (symbols : List Symbol) : Scope :=
  symbols.foldl add s

theorem addAll_append (s : Scope) (symbols symbols' : List Symbol) :
    s.addAll (symbols ++ symbols') = (s.addAll symbols).addAll symbols' :=
  List.foldl_append

theorem name_add (s : Scope) (symbol : Symbol) : (s.add symbol).name = s.name := by
  unfold add
  split <;> rfl

theorem name_addAll (s : Scope) (symbols : List Symbol) : (s.addAll symbols).name = s.name := by
  induction symbols generalizing s with
  | nil => rfl
  | cons symbol symbols ih => exact (ih (s.add symbol)).trans (s.name_add symbol)

open Typing in
/-- A name is in the scope behind `add` if it was there or is the new one. -/
theorem mem_names_add {s : Scope} {symbol : Symbol} {x : String} :
    x ∈ names (s.add symbol) ↔ x ∈ names s ∨ x = symbol.name := by
  unfold add
  split
  · next hfound =>
    -- the name is there already
    have hname : symbol.name ∈ names s := find?_isSome_iff.1 hfound
    refine ⟨Or.inl, fun h => ?_⟩
    rcases h with h | rfl
    · exact h
    · exact hname
  · rw [names, insert, List.map_append, List.mem_append, List.map_singleton, List.mem_singleton]
    rfl

open Typing in
/-- Whichever symbols win in `addAll`, the names are all there. -/
theorem mem_names_addAll {s : Scope} {symbols : List Symbol} {x : String} :
    x ∈ names (s.addAll symbols) ↔ x ∈ names s ∨ x ∈ symbols.map Symbol.name := by
  induction symbols generalizing s with
  | nil => simp [addAll]
  | cons symbol symbols ih =>
    rw [addAll, List.foldl_cons, ← addAll, ih, mem_names_add, List.map_cons, List.mem_cons,
      or_assoc]

end Scope

namespace Function

/-- The symbols of a function: its parameters and what its body declares. -/
def symbols (f : Function) : List Symbol :=
  f.params.map Param.symbol ++ f.body.symbols

theorem map_name_symbols (f : Function) : f.symbols.map Symbol.name = f.variables := by
  rw [symbols, Function.variables, List.map_append, List.map_map, f.body.map_name_symbols]
  rfl

/-- The symbol of a function. -/
def symbol (f : Function) : Symbol :=
  ⟨f.name, f.result, .function ⟨f.params, f.result⟩, f.pos⟩

/-- The scope of the given name with the symbols of a function. -/
def scopeNamed (f : Function) (name : String) : Scope :=
  Scope.addAll ⟨name, some SymbolTable.globalName, []⟩ f.symbols

/-- The scope of a function. -/
def scope (f : Function) : Scope :=
  f.scopeNamed ("function_" ++ f.name)

theorem name_scope (f : Function) : f.scope.name = "function_" ++ f.name :=
  Scope.name_addAll _ _

/-- The scope of a function has the names of its variables. -/
theorem mem_names_scope {f : Function} {x : String} :
    x ∈ Typing.names f.scope ↔ x ∈ f.variables := by
  rw [scope, scopeNamed, Scope.mem_names_addAll, f.map_name_symbols]
  simp [Typing.names]

end Function

/-- The table with the symbols and the scopes of functions, in their order. -/
def SymbolTable.ofFunctions (fs : List Function) : SymbolTable :=
  ⟨⟨globalName, none, fs.map Function.symbol⟩, fs.map Function.scope, globalName⟩

theorem Function.name_not_mem_of_nodup {before after : List Function} {f : Function}
    (h : ((before ++ f :: after).map Function.name).Nodup) : f.name ∉ before.map Function.name := by
  rw [List.map_append, List.map_cons, List.nodup_append] at h
  exact fun hmem => h.2.2 _ hmem _ (List.mem_cons_self ..) rfl

section

variable {fs : List Function} {f : Function} (hnames : (fs.map Function.name).Nodup) (hf : f ∈ fs)

include hnames hf

/-- Functions with different names are found by their names. -/
theorem Function.find?_of_nodup : fs.find? (fun g => g.name == f.name) = some f := by
  obtain ⟨before, after, rfl⟩ := List.append_of_mem hf
  have hname := Function.name_not_mem_of_nodup hnames
  refine List.find?_eq_some_iff_append.2 ⟨beq_self_eq_true _, before, after, rfl, fun g hg => ?_⟩
  have hne : g.name ≠ f.name := fun h => hname (List.mem_map.2 ⟨g, hg, h⟩)
  simpa using hne

/-- In `ofFunctions`, a function is found under its name. -/
theorem SymbolTable.find?_ofFunctions : (ofFunctions fs).globals.find? f.name = some f.symbol := by
  have hfind := Function.find?_of_nodup hnames hf
  rw [ofFunctions, Scope.find?, List.find?_map]
  exact congrArg (Option.map Function.symbol) hfind

/-- In `ofFunctions`, the scope of a function is found under its name. -/
theorem SymbolTable.scope?_ofFunctions :
    (ofFunctions fs).scope? ("function_" ++ f.name) = some f.scope := by
  have hglobal : ("function_" ++ f.name == globalName) = false := by
    simpa using Typing.function_append_ne_globalName f.name
  -- the names of scopes differ where the names of functions differ
  have hsame : (fun s => s.name == "function_" ++ f.name) ∘ Function.scope =
      fun g => g.name == f.name := by
    funext g
    rw [Function.comp_apply, g.name_scope, Bool.eq_iff_iff, beq_iff_eq, beq_iff_eq,
      String.append_right_inj]
  rw [scope?, hglobal, if_neg Bool.false_ne_true, ofFunctions, List.find?_map, hsame,
    Function.find?_of_nodup hnames hf]
  rfl

end

/-! ### Redeclarations -/

/-- The cause is that a name is already declared. -/
def TypingCause.redeclares : TypingCause → Bool
  | functionRedeclared _ => true
  | parameterRedeclared _ => true
  | variableRedeclared _ => true
  | _ => false

/-- The finding is that a name is already declared. -/
def Finding.redeclares (found : Finding TypingCause) : Bool :=
  found.cause.redeclares

/-- The finding that the name of a symbol is already declared. -/
def Symbol.redeclared (s : Symbol) : Finding TypingCause :=
  ⟨if s.role = .param then .parameterRedeclared s.name else .variableRedeclared s.name, s.pos⟩

theorem Symbol.redeclares_redeclared (s : Symbol) : s.redeclared.redeclares = true := by
  unfold Symbol.redeclared
  split <;> rfl

/-- No expression is blamed for a declaration. -/
theorem Expr.Blames.redeclares_eq {e : Expr} {found : Finding TypingCause} (h : e.Blames found) :
    found.redeclares = false := by
  obtain ⟨part, -, h⟩ := h
  cases h <;> rfl

/-! ### Putting scopes into tables -/

namespace SymbolTable

theorem put_current (t : SymbolTable) (scope : Scope) (name : String) :
    ({ t with current := name } : SymbolTable).put scope =
    { t.put scope with current := name } := by
  unfold put
  split
  · rfl
  · split <;> rfl

/-- A scope that is `put` into a table twice is there as it was put the second time. -/
theorem put_put (t : SymbolTable) {scope scope' : Scope} (hname : scope'.name = scope.name)
    (h : scope.name ≠ globalName) : (t.put scope).put scope' = t.put scope' := by
  have hglobal : (scope.name == globalName) = false := by simpa using h
  unfold put
  rw [hname, hglobal]
  by_cases hany : t.locals.any (fun s => s.name == scope.name) = true
  · -- the first scope has replaced another, and is replaced itself
    have hreplaced : (t.locals.map fun s => if s.name == scope.name then scope else s).any
        (fun s => s.name == scope.name) = true := by
      obtain ⟨s, hs, hsname⟩ := List.any_eq_true.1 hany
      refine List.any_eq_true.2 ⟨scope, List.mem_map.2 ⟨s, hs, ?_⟩, beq_self_eq_true _⟩
      rw [if_pos hsname]
    have htwice : ∀ s : Scope,
        (if (if s.name == scope.name then scope else s).name == scope.name then scope'
          else if s.name == scope.name then scope else s) =
        if s.name == scope.name then scope' else s := by
      intro s
      by_cases hs : (s.name == scope.name) = true <;> simp [hs]
    simp only [Bool.false_eq_true, if_false, hany, if_true, hreplaced, List.map_map,
      Function.comp_def, htwice]
  · -- the first scope stands behind all others
    have hearlier : t.locals.map (fun s => if s.name == scope.name then scope' else s) =
        t.locals := by
      refine (List.map_congr_left fun s hs => ?_).trans (List.map_id _)
      rw [Bool.not_eq_true, List.any_eq_false] at hany
      rw [if_neg (hany s hs), id]
    have hlast : (t.locals ++ [scope]).any (fun s => s.name == scope.name) = true := by simp
    simp only [Bool.false_eq_true, if_false, hany, hlast, if_true, List.map_append, hearlier,
      List.map_singleton, beq_self_eq_true]

/-- A scope with a new name is `put` behind all others. -/
theorem put_of_not_mem {t : SymbolTable} {scope : Scope} (h : scope.name ≠ globalName)
    (hnew : scope.name ∉ t.locals.map Scope.name) :
    t.put scope = { t with locals := t.locals ++ [scope] } := by
  have hglobal : (scope.name == globalName) = false := by simpa using h
  have hany : t.locals.any (fun s => s.name == scope.name) = false := by
    rw [List.any_eq_false]
    intro s hs hname
    exact hnew (List.mem_map.2 ⟨s, hs, by simpa using hname⟩)
  simp only [put, hglobal, hany, Bool.false_eq_true, if_false]

/-- `lookup` searches the current scope, and then the global one. -/
theorem lookup_of_currentScope {t : SymbolTable} {scope : Scope} (h : t.currentScope = .ok scope)
    (x : String) : t.lookup x = .ok ((scope.find? x).or (t.globals.find? x)) := by
  unfold lookup
  rw [h]
  rfl

end SymbolTable

namespace Typing

open Pass

/-! ### Tables that tell the same -/

section

variable {table table' : SymbolTable} (h : ∀ x, table.lookup x = table'.lookup x)

include h

/-- `calleeSignature` depends on what names stand for, and on nothing else in the table. -/
theorem calleeSignature_congr (f : Expr) (pos : Pos) :
    calleeSignature table f.toNode pos = calleeSignature table' f.toNode pos := by
  cases f with
  | ident x p => rw [Expr.toNode, calleeSignature, calleeSignature, h]
  | _ => rfl

end

mutual

/-- `infer` depends on what names stand for, and on nothing else in the table. -/
theorem infer_congr {table table' : SymbolTable} (h : ∀ x, table.lookup x = table'.lookup x) :
    ∀ e : Expr, infer table e.toNode = infer table' e.toNode
  | .literal .. => rfl
  | .ident x pos => by rw [Expr.toNode, infer, infer, nameType, nameType, h]
  | .unary op e pos => by rw [Expr.toNode, infer, infer, infer_congr h e]
  | .binary op l r pos => by rw [Expr.toNode, infer, infer, infer_congr h l, infer_congr h r]
  | .call f args pos => by
    rw [Expr.toNode, infer, infer, calleeSignature_congr h f, inferAll_congr h args]
  | .assign x e pos => by
    have htarget : ∀ name pos, targetType table name pos = targetType table' name pos := by
      intro name pos
      rw [targetType, targetType, h]
    rw [Expr.toNode, infer, infer, infer_congr h e]
    simp only [htarget]

theorem inferAll_congr {table table' : SymbolTable} (h : ∀ x, table.lookup x = table'.lookup x) :
    ∀ es : List Expr, inferAll table (Expr.toNodes es) = inferAll table' (Expr.toNodes es)
  | [] => rfl
  | e :: es => by rw [Expr.toNodes, inferAll, inferAll, infer_congr h e, inferAll_congr h es]

end

/-! ### Inside a function -/

/-- The context inside a function with the given result: `scope` has been put into the table
outside, and is current. -/
def Context.entered (outer : Context) (result : Ty) (scope : Scope) : Context :=
  ⟨{ outer.table.put scope with current := scope.name }, result.given?, outer.declarations⟩

section

variable {outer : Context} {globals : Scope} {result : Ty} {scope : Scope}

theorem currentScope_entered (h : scope.name ≠ SymbolTable.globalName) :
    (outer.entered result scope).table.currentScope = .ok scope :=
  SymbolTable.currentScope_eq (outer.table.scope?_put scope h)

theorem globals_entered (h : scope.name ≠ SymbolTable.globalName) :
    (outer.entered result scope).table.globals = outer.table.globals :=
  outer.table.globals_put h

/-- Putting the scope of the function back changes nothing else. -/
theorem put_entered (h : scope.name ≠ SymbolTable.globalName) {scope' : Scope}
    (hname : scope'.name = scope.name) :
    { outer.entered result scope with table := (outer.entered result scope).table.put scope' } =
      outer.entered result scope' := by
  have htable : (outer.entered result scope).table.put scope' =
      { outer.table.put scope' with current := scope'.name } := by
    unfold Context.entered
    rw [SymbolTable.put_current, SymbolTable.put_put _ hname h, hname]
  rw [htable]
  rfl

/-- Inside a function the checker does not fail, adds the symbols to the scope of the function, and
reports as many declarations as it does not add. What it reports depends on that scope and on the
global one, and on nothing else in the table. -/
def Adds {α : Type} (globals : Scope) (result : Ty) (m : Checker α) (symbols : List Symbol) :
    Prop :=
  ∀ scope : Scope, scope.name ≠ SymbolTable.globalName → ∃ a log,
    log.countP Finding.redeclares + (scope.addAll symbols).symbols.length =
      scope.symbols.length + symbols.length ∧
    ∀ outer : Context, outer.table.globals = globals →
      m (outer.entered result scope) = ⟨.ok a, log, outer.entered result (scope.addAll symbols)⟩

variable {α β : Type} {symbols symbols' : List Symbol}

theorem adds_pure (a : α) : Adds globals result (pure a) [] :=
  fun scope _ => ⟨a, [], by simp [Scope.addAll], fun _ _ => rfl⟩

/-- One pass behind the other `Adds` the symbols of both. -/
theorem Adds.bind {m : Checker α} {f : α → Checker β} (hm : Adds globals result m symbols)
    (hf : ∀ a, Adds globals result (f a) symbols') :
    Adds globals result (m >>= f) (symbols ++ symbols') := by
  intro scope hname
  obtain ⟨a, log, hcount, ha⟩ := hm scope hname
  obtain ⟨b, log', hcount', hb⟩ :=
    hf a (scope.addAll symbols) (by rw [scope.name_addAll]; exact hname)
  refine ⟨b, log ++ log', ?_, fun outer houter => ?_⟩
  · rw [List.countP_append, List.length_append, scope.addAll_append]
    omega
  · rw [scope.addAll_append]
    exact bind_eq (ha outer houter) (hb outer houter)

theorem Adds.bind_pure {m : Checker α} (hm : Adds globals result m symbols) (b : β) :
    Adds globals result (m >>= fun _ => pure b) symbols := by
  have h := hm.bind fun _ => adds_pure b
  rwa [List.append_nil] at h

theorem Adds.discard {m : Checker α} (hm : Adds globals result m symbols) :
    Adds globals result (discard m) symbols :=
  hm.bind_pure ()

/-- Only the contexts inside the function matter. -/
theorem Adds.congr {m m' : Checker α}
    (h : ∀ outer scope, m (Context.entered outer result scope) = m' (outer.entered result scope))
    (hm : Adds globals result m' symbols) : Adds globals result m symbols := by
  intro scope hname
  obtain ⟨a, log, hcount, hrun⟩ := hm scope hname
  exact ⟨a, log, hcount, fun outer houter => (h outer scope).trans (hrun outer houter)⟩

/-- A report that is not about a declaration. -/
theorem adds_report {cause : TypingCause} (h : cause.redeclares = false) (pos : Pos) :
    Adds globals result (report cause pos) [] :=
  fun scope _ => ⟨(), [⟨cause, pos⟩], by simp [Scope.addAll, Finding.redeclares, h], fun _ _ => rfl⟩

/-- A check `Adds` nothing, and does not report a second declaration. -/
theorem adds_require {cause : TypingCause} (h : cause.redeclares = false) (holds : Bool)
    (pos : Pos) :
    Adds globals result (require holds cause pos) [] := by
  unfold require
  split
  · exact adds_pure ()
  · exact adds_report h pos

/-- `declare` reports a name that is taken, and leaves the scope as it is. -/
theorem declare_entered (hname : scope.name ≠ SymbolTable.globalName) (symbol : Symbol) :
    declare symbol.name symbol.type symbol.role symbol.pos (outer.entered result scope) =
      ⟨.ok (), if (scope.find? symbol.name).isSome then [symbol.redeclared] else [],
        outer.entered result (scope.add symbol)⟩ := by
  have hget : (Pass.get : Checker Context).Yields (outer.entered result scope)
    (outer.entered result scope) (outer.entered result scope) := rfl
  rw [declare, hget.bind_apply, currentScope_entered hname, ofExcept_ok, pure_bind]
  by_cases hfound : (scope.find? symbol.name).isSome = true
  · rw [if_pos hfound, if_pos hfound, Scope.add, if_pos hfound]
    rfl
  · rw [if_neg hfound, if_neg hfound, Scope.add, if_neg hfound,
      ← put_entered hname (rfl : (scope.insert symbol).name = scope.name)]
    rfl

/-- A declaration `Adds` its symbol. -/
theorem adds_declare (symbol : Symbol) :
    Adds globals result (declare symbol.name symbol.type symbol.role symbol.pos) [symbol] := by
  intro scope hname
  refine ⟨_, _, ?_, fun outer _ => declare_entered hname symbol⟩
  have hadd : scope.addAll [symbol] = scope.add symbol := rfl
  rw [hadd, Scope.add]
  split
  · rw [List.countP_singleton, symbol.redeclares_redeclared]
    simp [Nat.add_comm]
  · simp [Scope.insert]

theorem adds_declareParams (ps : List Param) :
    Adds globals result (declareParams ps) (ps.map Param.symbol) := by
  induction ps with
  | nil => exact adds_pure ()
  | cons p ps ih => exact (adds_declare p.symbol).bind fun _ => ih

end

/-! ### Statements -/

section

variable {globals : Scope} {result : Ty}

theorem adds_typeOf (honly : OnlyFunctions globals) (e : Expr) :
    Adds globals result (typeOf e.toNode) [] := by
  intro scope hname
  -- the type does not depend on what else is in the table, so a table with this scope only will do
  have hscope : (⟨globals, [scope], scope.name⟩ : SymbolTable).currentScope = .ok scope := by
    have hglobal : (scope.name == SymbolTable.globalName) = false := by simpa using hname
    refine SymbolTable.currentScope_eq ?_
    simp [SymbolTable.scope?, hglobal]
  have hinside : Inside globals (names scope) ⟨globals, [scope], scope.name⟩ :=
    ⟨rfl, honly, hname, scope, hscope, fun s hs => List.mem_map_of_mem hs⟩
  obtain ⟨⟨t, hvalue⟩, -, -⟩ := ensures_infer hinside e () trivial
  refine ⟨t, (infer ⟨globals, [scope], scope.name⟩ e.toNode ()).log, ?_, fun outer houter => ?_⟩
  · have hlog : ∀ found ∈ (infer ⟨globals, [scope], scope.name⟩ e.toNode ()).log,
        ¬ Finding.redeclares found = true := by
      refine logs_infer e (fun found hfound => ?_) ()
      rw [hfound.redeclares_eq]
      exact Bool.false_ne_true
    rw [List.countP_eq_zero.2 hlog, Nat.zero_add]
    rfl
  · have hlookup : ∀ x, (outer.entered result scope).table.lookup x =
        (⟨globals, [scope], scope.name⟩ : SymbolTable).lookup x := by
      intro x
      rw [SymbolTable.lookup_of_currentScope (currentScope_entered hname), globals_entered hname,
        houter, SymbolTable.lookup_of_currentScope hscope]
    rw [typeOf_apply, infer_congr hlookup e, hvalue]
    rfl

theorem adds_checkCondition (honly : OnlyFunctions globals) (e : Expr) {cause : TypingCause}
    (h : cause.redeclares = false) : Adds globals result (checkCondition e.toNode cause) [] :=
  (adds_typeOf honly e).bind fun _ => adds_require h _ _

/-- Where no type is expected, `checkReturn` reports the statement and looks at its value. -/
theorem checkReturn_of_none {c : Context} (h : c.returnType = none) (value : Node) (pos : Pos) :
    checkReturn value pos c = (do
      report .returnOutside pos
      if value.isAbsent then pure () else discard (typeOf value)) c := by
  have hget : (Pass.get : Checker Context).Yields c c c := rfl
  rw [checkReturn, hget.bind_apply, h]

/-- Where a type is expected, `checkReturn` checks the value against it. -/
theorem checkReturn_of_some {c : Context} {expected : Ty} (h : c.returnType = some expected)
    (value : Node) (pos : Pos) :
    checkReturn value pos c =
      (if value.isAbsent then require (expected == .void) (.mustReturn expected) pos
      else do
        let actual ← typeOf value
        require (expected.assignable actual) (.mustReturnGot expected actual) pos) c := by
  have hget : (Pass.get : Checker Context).Yields c c c := rfl
  rw [checkReturn, hget.bind_apply, h]

/-- Checking a return statement `Adds` nothing. -/
theorem adds_checkReturn (honly : OnlyFunctions globals) (value : Option Expr) (pos : Pos) :
    Adds globals result (checkReturn (.ofExpr? value) pos) [] := by
  -- every context entered for `result` has the same type to check against
  cases hgiven : result.given? with
  | none =>
    refine .congr (fun outer scope => checkReturn_of_none hgiven _ pos) ?_
    refine (adds_report rfl pos).bind fun _ => ?_
    cases value with
    | none => exact adds_pure ()
    | some e =>
      rw [Node.ofExpr?, e.isAbsent_toNode]
      exact (adds_typeOf honly e).discard
  | some expected =>
    refine .congr (fun outer scope => checkReturn_of_some hgiven _ pos) ?_
    cases value with
    | none => exact adds_require rfl _ _
    | some e =>
      rw [Node.ofExpr?, e.isAbsent_toNode]
      exact (adds_typeOf honly e).bind fun _ => adds_require rfl _ _

mutual

/-- Checking a statement `Adds` the symbols that it declares. -/
theorem adds_check (honly : OnlyFunctions globals) : ∀ s : Stmt,
    Adds globals result (check s.toNode) s.symbols
  | .expr e pos => (adds_typeOf honly e).discard.bind_pure _
  | .declare t x none pos => (adds_declare ⟨x, t, .var, pos⟩).bind_pure _
  | .declare t x (some e) pos => by
    rw [Stmt.toNode, check]
    refine (adds_declare ⟨x, t, .var, pos⟩).bind fun _ => ?_
    rw [Node.ofExpr?, e.isAbsent_toNode]
    exact (adds_typeOf honly e).bind fun _ => (adds_require rfl _ _).bind_pure _
  | .ifThen c b pos =>
    (adds_checkCondition honly c rfl).bind fun _ => (adds_checkBlock honly b).discard.bind_pure _
  | .ifElse c b a pos => by
    rw [Stmt.toNode, check]
    refine (adds_checkCondition honly c rfl).bind fun _ =>
      (adds_checkBlock honly b).discard.bind fun _ => ?_
    rw [a.isAbsent_toNode]
    exact (adds_checkBlock honly a).discard.bind_pure _
  | .loop c b pos =>
    (adds_checkCondition honly c rfl).bind fun _ => (adds_checkBlock honly b).discard.bind_pure _
  | .ret value pos => (adds_checkReturn honly value pos).bind_pure _

theorem adds_checkBlock (honly : OnlyFunctions globals) : ∀ b : Block,
    Adds globals result (check b.toNode) b.symbols
  | .mk ss _ => (adds_checkAll honly ss).bind_pure _

theorem adds_checkAll (honly : OnlyFunctions globals) : ∀ ss : List Stmt,
    Adds globals result (checkAll (Stmt.toNodes ss)) (Stmt.symbolsAll ss)
  | [] => adds_pure ()
  | s :: ss => (adds_check honly s).discard.bind fun _ => adds_checkAll honly ss

end

/-! ### Functions and programs -/

/-- `enter` puts the scope of a function into the table, and changes nothing else. What is reported
depends on the function and on the global scope only. -/
theorem enter_eq (honly : OnlyFunctions globals) (f : Function) {name : String}
    (hname : name ≠ SymbolTable.globalName) :
    ∃ log : List (Finding TypingCause),
      log.countP Finding.redeclares + (f.scopeNamed name).symbols.length = f.symbols.length ∧
      ∀ outer : Context, outer.table.globals = globals →
        enter name f outer =
          ⟨.ok .void, log, { outer with table := outer.table.put (f.scopeNamed name) }⟩ := by
  have hbody : Adds globals f.result (do
      declareParams f.params
      discard (check f.body.toNode)) f.symbols :=
    (adds_declareParams f.params).bind fun _ => (adds_checkBlock honly f.body).discard
  obtain ⟨u, log, hcount, hrun⟩ := hbody ⟨name, some SymbolTable.globalName, []⟩ hname
  refine ⟨log, hcount.trans (Nat.zero_add _), fun outer houter => ?_⟩
  have hinside : inFunction name f.result (do
      declareParams f.params
      discard (check f.body.toNode)) { outer with table := outer.table.openScope name } =
        ⟨.ok u, log, { outer with table := outer.table.put (f.scopeNamed name) }⟩ := by
    -- the scope that was current before is current again
    have hcurrent : ({ outer.table.put (f.scopeNamed name) with current := outer.table.current } :
        SymbolTable) = outer.table.put (f.scopeNamed name) := by
      rw [← outer.table.current_put (f.scopeNamed name)]
    rw [inFunction_apply { outer with table := outer.table.openScope name } (hrun outer houter),
      ← hcurrent, SymbolTable.openScope, SymbolTable.current_put]
    rfl
  exact bind_eq rfl (bind_eq_of_silent hinside rfl)

/-- The context behind functions in which nothing was found wrong. -/
def Context.behind (fs : List Function) : Context :=
  ⟨.ofFunctions fs, none, []⟩

theorem onlyFunctions_behind (fs : List Function) :
    OnlyFunctions (Context.behind fs).table.globals := by
  intro symbol hsymbol
  obtain ⟨f, -, rfl⟩ := List.mem_map.1 hsymbol
  rfl

theorem names_behind (fs : List Function) :
    names (Context.behind fs).table.globals = fs.map Function.name :=
  List.map_map

theorem scopeName_not_mem_behind {fs : List Function} {f : Function}
    (h : f.name ∉ fs.map Function.name) :
    "function_" ++ f.name ∉ (Context.behind fs).table.locals.map Scope.name := by
  intro hmem
  obtain ⟨scope, hscope, hname⟩ := List.mem_map.1 hmem
  obtain ⟨g, hg, rfl⟩ := List.mem_map.1 hscope
  rw [g.name_scope, String.append_right_inj] at hname
  exact h (List.mem_map.2 ⟨g, hg, hname⟩)

/-- A function that `check` passes in silence is added to the table. -/
theorem check_function_yields {fs : List Function} {f : Function} {t : Ty} {context : Context}
    (h : (check f.toNode).Yields (Context.behind fs) t context) :
    context = Context.behind (fs ++ [f]) := by
  rw [check_function_eq] at h
  obtain ⟨name, declared, hdeclare, henter⟩ := yields_bind_iff.1 h
  obtain ⟨hname, rfl, rfl⟩ := declareFunction_yields_iff.1 hdeclare
  rw [names_behind] at hname
  -- the function is declared before its scope is opened
  have honly : OnlyFunctions ((Context.behind fs).table.globals.insert f.symbol) :=
    List.forall_mem_append.2 ⟨onlyFunctions_behind fs, List.forall_mem_singleton.2 rfl⟩
  have hlocal : f.scope.name ≠ SymbolTable.globalName := by
    rw [f.name_scope]
    exact function_append_ne_globalName f.name
  obtain ⟨log, -, hrun⟩ := enter_eq honly f (function_append_ne_globalName f.name)
  obtain ⟨-, -, hcontext⟩ := Outcome.mk.inj ((hrun
    { Context.behind fs with table.globals := (Context.behind fs).table.globals.insert f.symbol }
    rfl).symm.trans henter)
  rw [← hcontext, ← Function.scope, SymbolTable.put_of_not_mem hlocal]
  · simp [Context.behind, SymbolTable.ofFunctions, Scope.insert]
  · rw [f.name_scope]
    exact scopeName_not_mem_behind hname

/-- Functions that `checkAll` passes in silence are added to the table in their order. -/
theorem checkAll_functions_yields (fs : List Function) {gs : List Function} {context : Context}
    (h : (checkAll (gs.map Function.toNode)).Yields (Context.behind fs) () context) :
    context = Context.behind (fs ++ gs) := by
  induction gs generalizing fs with
  | nil =>
    obtain ⟨-, rfl⟩ := yields_pure_iff.1 h
    rw [List.append_nil]
  | cons g gs ih =>
    obtain ⟨u, checked, hdiscard, hrest⟩ := yields_bind_iff.1 h
    obtain ⟨t, hcheck, -⟩ := yields_map_iff.1 hdiscard
    obtain rfl := check_function_yields hcheck
    rw [List.append_cons]
    exact ih (fs ++ [g]) hrest

end

end Typing

/-- Where nothing is found wrong, the table is that of `ofFunctions`. -/
theorem table_of_clean {p : Program} (h : (analyze p).findings = []) :
    (analyze p).table = .ofFunctions p.functions := by
  obtain ⟨context, hcheck⟩ := (findings_eq_nil_iff_yields p).1 h
  have hcontext : context = Typing.Context.behind p.functions :=
    Typing.checkAll_functions_yields [] hcheck
  rw [analyze_eq hcheck, hcontext]
  rfl

end Tricode
