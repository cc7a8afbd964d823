import Tricode.Proofs.Typing.Table

/-!
# One function after the other

What the checker does with a function can be said without looking into its body
(`Context.visiting`): the function is declared, unless there is one of its name, and a scope with
the symbols of the function is put into the table. The scope is named after the function, and from
the second declaration of a name on it is numbered. A program is checked by visiting its functions
in turn (`checkAll_functions_visiting`).

What is reported on a visit depends on the functions declared before, and not on their scopes:
wherever the global scope and the numbers are the same, the same is reported
(`check_function_visiting`).
-/

namespace Tricode

/-! ### The first of each name -/

/-- The first symbol of each name, in the order of the list. -/
def Symbol.firsts : List Symbol → List Symbol
  | [] => []
  | s :: ss => s :: (firsts ss).filter fun t => t.name != s.name

namespace Scope

open Typing

/-- `addAll` appends the first symbol of each name that is not taken. -/
theorem symbols_addAll (s : Scope) (symbols : List Symbol) :
    (s.addAll symbols).symbols =
      s.symbols ++ (Symbol.firsts symbols).filter fun t => !(names s).contains t.name := by
  induction symbols generalizing s with
  | nil => simp [addAll, Symbol.firsts]
  | cons symbol symbols ih =>
    have hcons : s.addAll (symbol :: symbols) = (s.add symbol).addAll symbols := rfl
    rw [hcons, ih, Symbol.firsts, List.filter_cons, List.filter_filter]
    by_cases hfound : (s.find? symbol.name).isSome = true
    · -- the name is taken, and so it is no loss to filter it out
      have hmem : symbol.name ∈ names s := find?_isSome_iff.1 hfound
      rw [Scope.add, if_pos hfound, if_neg (by simpa using hmem)]
      refine congrArg (s.symbols ++ ·) (List.filter_congr fun t _ => ?_)
      by_cases ht : t.name = symbol.name
      · simp [ht, hmem]
      · simp [ht]
    · have hmem : symbol.name ∉ names s := mt find?_isSome_iff.2 hfound
      have hnames : names (s.insert symbol) = names s ++ [symbol.name] := by
        simp [names, Scope.insert]
      rw [Scope.add, if_neg hfound, if_pos (by simpa using hmem), hnames]
      simp only [Scope.insert, List.append_assoc, List.singleton_append]
      refine congrArg (fun rest => s.symbols ++ symbol :: rest) (List.filter_congr fun t _ => ?_)
      by_cases ht : t.name = symbol.name <;> simp [ht]

theorem parent_addAll (s : Scope) (symbols : List Symbol) :
    (s.addAll symbols).parent = s.parent := by
  induction symbols generalizing s with
  | nil => rfl
  | cons symbol symbols ih =>
    refine (ih (s.add symbol)).trans ?_
    unfold Scope.add
    split <;> rfl

/-- `addAll` gives an empty scope the first symbol of each name. -/
theorem addAll_empty (name : String) (parent : Option String) (symbols : List Symbol) :
    addAll ⟨name, parent, []⟩ symbols = ⟨name, parent, Symbol.firsts symbols⟩ := by
  have hname := name_addAll ⟨name, parent, []⟩ symbols
  have hparent := parent_addAll ⟨name, parent, []⟩ symbols
  have hsymbols := symbols_addAll ⟨name, parent, []⟩ symbols
  have hnames : names ⟨name, parent, []⟩ = [] := rfl
  rw [hnames] at hsymbols
  simp only [List.nil_append, List.contains_nil, Bool.not_false, List.filter_true] at hsymbols
  calc addAll ⟨name, parent, []⟩ symbols
      = ⟨(addAll ⟨name, parent, []⟩ symbols).name, (addAll ⟨name, parent, []⟩ symbols).parent,
          (addAll ⟨name, parent, []⟩ symbols).symbols⟩ := rfl
    _ = ⟨name, parent, Symbol.firsts symbols⟩ := by rw [hname, hparent, hsymbols]

end Scope

theorem Function.scopeNamed_eq (f : Function) (name : String) :
    f.scopeNamed name = ⟨name, some SymbolTable.globalName, Symbol.firsts f.symbols⟩ :=
  Scope.addAll_empty _ _ _

theorem Function.add_symbol (f : Function) (s : Scope) :
    s.add f.symbol = if (s.find? f.name).isSome then s else s.insert f.symbol :=
  rfl

namespace Typing

open Pass

/-! ### Visiting a function -/

namespace Context

/-- The number of the next declaration of a name that is taken. -/
def number (context : Context) (x : String) : Nat :=
  (context.declarations.lookup x).getD 1 + 1

/-- The name of the scope for the next function of the given name. -/
def scopeName (context : Context) (x : String) : String :=
  if (context.table.globals.find? x).isSome then s!"function_{x}#{context.number x}"
  else s!"function_{x}"

/-- The context once the function is declared. -/
def declaring (context : Context) (f : Function) : Context :=
  if (context.table.globals.find? f.name).isSome then
    { context with declarations := (f.name, context.number f.name) :: context.declarations }
  else { context with table.globals := context.table.globals.insert f.symbol }

/-- The context once the function is checked. -/
def visiting (context : Context) (f : Function) : Context :=
  { context.declaring f with
    table := (context.declaring f).table.put (f.scopeNamed (context.scopeName f.name)) }

/-- No `scopeName` is the name of the global scope. -/
theorem scopeName_ne_globalName (context : Context) (x : String) :
    context.scopeName x ≠ SymbolTable.globalName := by
  unfold scopeName
  split
  · rw [String.append_assoc, String.append_assoc]
    exact function_append_ne_globalName _
  · exact function_append_ne_globalName x

theorem globals_declaring (context : Context) (f : Function) :
    (context.declaring f).table.globals = context.table.globals.add f.symbol := by
  rw [f.add_symbol]
  unfold declaring
  split <;> rfl

theorem globals_visiting (context : Context) (f : Function) :
    (context.visiting f).table.globals = context.table.globals.add f.symbol := by
  have hname : (f.scopeNamed (context.scopeName f.name)).name ≠ SymbolTable.globalName := by
    rw [f.scopeNamed_eq]
    exact context.scopeName_ne_globalName f.name
  unfold visiting
  rw [SymbolTable.globals_put _ hname, globals_declaring]

end Context

/-- `declareFunction` reports a name that is there already, and gives a scope in any case. -/
theorem declareFunction_eq (f : Function) (context : Context) :
    declareFunction f.name ⟨f.params, f.result⟩ f.pos context =
      ⟨.ok (context.scopeName f.name),
        if (context.table.globals.find? f.name).isSome then
          [⟨.functionRedeclared f.name, f.pos⟩] else [],
        context.declaring f⟩ := by
  have hget : (Pass.get : Checker Context).Yields context context context := rfl
  rw [declareFunction, hget.bind_apply]
  unfold Context.scopeName Context.declaring
  split <;> rfl

theorem onlyFunctions_add {s : Scope} (h : OnlyFunctions s) (f : Function) :
    OnlyFunctions (s.add f.symbol) := by
  unfold Scope.add
  split
  · exact h
  · exact List.forall_mem_append.2 ⟨h, List.forall_mem_singleton.2 rfl⟩

/-- To `check` a function is to visit it, `visiting`. What is reported depends on the functions
declared before and on the numbers of their declarations, and on nothing else in the context; as
many declarations are reported as are not entered into a scope. -/
theorem check_function_visiting {globals : Scope} (honly : OnlyFunctions globals)
    (declarations : List (String × Nat)) (f : Function) :
    ∃ log : List (Finding TypingCause),
      log.countP Finding.redeclares +
          ((Symbol.firsts f.symbols).length + (globals.add f.symbol).symbols.length) =
        f.symbols.length + globals.symbols.length + 1 ∧
      ∀ context : Context, context.table.globals = globals → context.declarations = declarations →
        check f.toNode context = ⟨.ok .void, log, context.visiting f⟩ := by
  -- the name of the scope can be told from the global scope and the numbers
  obtain ⟨name, hname⟩ : ∃ name, ∀ context : Context, context.table.globals = globals →
      context.declarations = declarations → context.scopeName f.name = name := by
    refine ⟨Context.scopeName ⟨⟨globals, [], ""⟩, none, declarations⟩ f.name, ?_⟩
    rintro ⟨⟨_, _, _⟩, _, _⟩ rfl rfl
    rfl
  have hlocal : name ≠ SymbolTable.globalName := by
    rw [← hname ⟨⟨globals, [], ""⟩, none, declarations⟩ rfl rfl]
    exact Context.scopeName_ne_globalName _ _
  obtain ⟨log, hcount, hrun⟩ := enter_eq (onlyFunctions_add honly f) f hlocal
  refine ⟨(if (globals.find? f.name).isSome then [⟨.functionRedeclared f.name, f.pos⟩] else []) ++
    log, ?_, fun context hglobals hdeclarations => ?_⟩
  · rw [f.scopeNamed_eq] at hcount
    have hsymbols : (Symbol.firsts f.symbols).length =
        (⟨name, some SymbolTable.globalName, Symbol.firsts f.symbols⟩ : Scope).symbols.length := rfl
    rw [List.countP_append, hsymbols, f.add_symbol]
    split
    · have hone : List.countP Finding.redeclares
          [(⟨.functionRedeclared f.name, f.pos⟩ : Finding TypingCause)] = 1 := rfl
      omega
    · have hinsert : (globals.insert f.symbol).symbols.length = globals.symbols.length + 1 :=
        List.length_append
      rw [List.countP_nil]
      omega
  · rw [check_function_eq]
    have hdeclare := declareFunction_eq f context
    have henter := hrun (context.declaring f) (by rw [context.globals_declaring, hglobals])
    rw [hname context hglobals hdeclarations, hglobals] at hdeclare
    rw [bind_eq hdeclare henter, Context.visiting, hname context hglobals hdeclarations]

/-! ### Visiting functions in turn -/

theorem onlyFunctions_empty : OnlyFunctions Context.empty.table.globals :=
  fun symbol hsymbol => by cases hsymbol

theorem onlyFunctions_visiting {context : Context} (h : OnlyFunctions context.table.globals)
    (f : Function) : OnlyFunctions (context.visiting f).table.globals := by
  rw [context.globals_visiting]
  exact onlyFunctions_add h f

/-- Visits, `visiting`, add the symbols of functions to the global scope, unless their names are
there. -/
theorem globals_foldl_visiting (fs : List Function) (context : Context) :
    (fs.foldl Context.visiting context).table.globals =
      context.table.globals.addAll (fs.map Function.symbol) := by
  induction fs generalizing context with
  | nil => rfl
  | cons f fs ih =>
    rw [List.foldl_cons, ih, context.globals_visiting]
    rfl

/-- A program is checked by `visiting` its functions in turn. -/
theorem checkAll_functions_visiting (fs : List Function) (context : Context)
    (honly : OnlyFunctions context.table.globals) :
    ∃ log : List (Finding TypingCause),
      checkAll (fs.map Function.toNode) context = ⟨.ok (), log, fs.foldl Context.visiting context⟩ ∧
      log.countP Finding.redeclares + ((fs.flatMap fun f => Symbol.firsts f.symbols).length +
          (fs.foldl Context.visiting context).table.globals.symbols.length) =
        (fs.flatMap Function.symbols).length + context.table.globals.symbols.length +
          fs.length := by
  induction fs generalizing context with
  | nil => exact ⟨[], rfl, by simp⟩
  | cons f fs ih =>
    obtain ⟨log, hcount, hcheck⟩ := check_function_visiting honly context.declarations f
    obtain ⟨log', hrest, hcount'⟩ := ih (context.visiting f) (onlyFunctions_visiting honly f)
    refine ⟨log ++ log', bind_eq (discard_eq (hcheck context rfl rfl)) hrest, ?_⟩
    rw [context.globals_visiting] at hcount'
    rw [List.countP_append, List.flatMap_cons, List.flatMap_cons, List.length_append,
      List.length_append, List.length_cons, List.foldl_cons]
    omega

end Typing

/-- The analysis of a program is what `visiting` its functions leaves, and counts the declarations
that were not entered. -/
theorem analyze_visiting (p : Program) :
    (analyze p).table = (p.functions.foldl Typing.Context.visiting .empty).table ∧
      (analyze p).fault = none ∧
      (analyze p).findings.countP Finding.redeclares +
          ((p.functions.flatMap fun f => Symbol.firsts f.symbols).length +
            (analyze p).table.globals.symbols.length) =
        (p.functions.flatMap Function.symbols).length + p.functions.length := by
  obtain ⟨log, hcheck, hcount⟩ :=
    Typing.checkAll_functions_visiting p.functions .empty Typing.onlyFunctions_empty
  rw [analyze_eq hcheck]
  exact ⟨rfl, rfl, hcount⟩

end Tricode
