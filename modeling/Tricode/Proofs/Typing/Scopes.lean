import Mathlib.Data.List.Induction
import Tricode.Proofs.Typing.Visits

/-!
# The first binding wins

The symbol table of a program from a source text can be read off the program, whatever is wrong with
it (`firstBindings_analyze`). The global scope holds the first function of each name. Behind it
stands one scope for each function, in the order of the text; it holds the first symbol of each name
among the parameters of the function and what its body declares. As many redeclarations are reported
as there are declarations that are in no scope.

No scope is overwritten, since no two have the same name: the scopes of functions with the same name
are numbered, and a name in a source text holds no number sign (`scopeNameOf_inj`). Functions made
by hand could have names like `f#2`.
-/

namespace Tricode

/-! ### Names in source texts -/

/-- If the token is a name, it consists of characters of words. -/
def Token.Worded (t : Token) : Prop :=
  t.tag = .identifier → ∀ c ∈ t.text.toList, Segment.continuesWord c = true

namespace Segment

/-- If the segment becomes a name, it consists of characters of words. -/
def Worded : Segment → Prop
  | lexeme tag chars => tag = .identifier → ∀ c ∈ chars, continuesWord c = true
  | _ => True

theorem continuesWord_of_startsWord {c : Char} (h : startsWord c = true) :
    continuesWord c = true := by
  show (c.isAlpha || c.isDigit || c == '_') = true
  rcases Bool.or_eq_true _ _ ▸ h with halpha | hunderscore
  · rw [halpha]
    rfl
  · rw [hunderscore, Bool.or_true]

theorem worded_mark (c : Char) : (mark c).Worded := by
  unfold mark
  split
  · next tag htag =>
    intro hidentifier
    exact absurd (hidentifier ▸ htag) fun h => markTag_not_mem h (by decide)
  · trivial

/-- The first segment of a text is made of word characters, if it is an identifier. -/
theorem worded_first (c : Char) (cs : List Char) : (first c cs).1.Worded := by
  unfold first
  split
  · trivial
  split
  · next hword =>
    exact fun _ => List.forall_mem_cons.2
      ⟨continuesWord_of_startsWord hword, fun d hd => List.all_eq_true.1 List.all_takeWhile d hd⟩
  split
  -- a number is no identifier
  · unfold number
    split <;>
    · intro hidentifier
      cases hidentifier
  split
  · split
    · next tag htag =>
      intro hidentifier
      exact absurd (hidentifier ▸ htag) fun h => pairTag_not_mem h (by decide)
    · exact worded_mark c
  · exact worded_mark c

end Segment

theorem worded_of_mem_scan {source : String} {t : Token} (h : t ∈ (scan source).1) : t.Worded := by
  intro htag
  rcases exists_of_mem_scan Segment.worded_first h with hend | ⟨chars, htext, hworded⟩
  · rw [hend] at htag
    cases htag
  · rw [htext, String.toList_ofList]
    exact hworded htag

/-- The name of the function holds no number sign. -/
def Function.Unnumbered (f : Function) : Prop :=
  '#' ∉ f.name.toList

namespace Parser

theorem stmtRules_any (K : Keeping) :
    StmtRules K (fun _ => True) (fun _ _ => True) (fun _ _ => True) := by
  constructor <;> intros <;> trivial

theorem functionRules_unnumbered : FunctionRules (.all Token.Worded) (fun _ => True) (fun _ => True)
    Function.Unnumbered where
  param _ _ _ := trivial
  function h _ htag _ _ := by
    obtain ⟨ts, h⟩ := h
    intro hmem
    have hword := h _ (List.mem_cons_of_mem _ List.mem_cons_self) htag '#' hmem
    exact absurd hword (by decide)

end Parser

/-- The functions of a source text are `Unnumbered`: they have no number sign in their names. -/
theorem unnumbered_parse (source : String) :
    ∀ f ∈ (parse (scan source).1).1.functions, f.Unnumbered :=
  Parser.functions_parse (Parser.exprRules_any _) (Parser.stmtRules_any _)
    Parser.functionRules_unnumbered fun _ => worded_of_mem_scan

/-! ### Names of scopes -/

/-- The name of the scope of the `k`-th function of a name, counted from 1. -/
def scopeNameOf (x : String) (k : Nat) : String :=
  if k = 1 then "function_" ++ x else "function_" ++ x ++ "#" ++ toString k

example : scopeNameOf "f" 1 = "function_f" ∧ scopeNameOf "f" 2 = "function_f#2" := by
  decide

theorem sign_not_mem_toString (n : Nat) : '#' ∉ (toString n).toList := by
  rw [toList_toString]
  intro h
  exact absurd (Nat.isDigit_of_mem_toDigits (by decide) (by decide) h) (by decide)

theorem toList_numbered (x : String) (k : Nat) :
    (x ++ "#" ++ toString k).toList = x.toList ++ '#' :: (toString k).toList := by
  rw [String.toList_append, String.toList_append, List.append_assoc]
  rfl

/-- A name without a number sign is no numbered one. -/
theorem ne_numbered {x : String} (hx : '#' ∉ x.toList) (y : String) (k : Nat) :
    x ≠ y ++ "#" ++ toString k := by
  rintro rfl
  rw [toList_numbered] at hx
  exact hx (List.mem_append_right _ List.mem_cons_self)

/-- The first number sign is the end of the name. -/
theorem numbered_inj {x y : String} {k l : Nat} (hx : '#' ∉ x.toList)
    (h : x ++ "#" ++ toString k = y ++ "#" ++ toString l) : x = y ∧ k = l := by
  have hlists := congrArg String.toList h
  rw [toList_numbered, toList_numbered] at hlists
  obtain ⟨hnames, -, hdigits⟩ :=
    (List.append_cons_inj_of_notMem hx (sign_not_mem_toString k)).1 hlists
  rw [toList_toString, toList_toString] at hdigits
  refine ⟨String.toList_inj.1 hnames, ?_⟩
  calc k = Nat.ofDigitChars 10 (Nat.toDigits 10 k) 0 := Nat.ofDigitChars_ten_toDigits.symm
    _ = Nat.ofDigitChars 10 (Nat.toDigits 10 l) 0 := by rw [hdigits]
    _ = l := Nat.ofDigitChars_ten_toDigits

/-- What stands behind the prefix in the name of a scope. -/
theorem scopeNameOf_eq (x : String) (k : Nat) :
    scopeNameOf x k = "function_" ++ if k = 1 then x else x ++ "#" ++ toString k := by
  unfold scopeNameOf
  split
  · rfl
  · simp only [String.append_assoc]

/-- Names without number signs, and the numbers, can be read off by `scopeNameOf`. -/
theorem scopeNameOf_inj {x y : String} {k l : Nat} (hx : '#' ∉ x.toList) (hy : '#' ∉ y.toList)
    (h : scopeNameOf x k = scopeNameOf y l) : x = y ∧ k = l := by
  rw [scopeNameOf_eq, scopeNameOf_eq, String.append_right_inj] at h
  by_cases hk : k = 1 <;> by_cases hl : l = 1
  · rw [if_pos hk, if_pos hl] at h
    exact ⟨h, hk.trans hl.symm⟩
  · rw [if_pos hk, if_neg hl] at h
    exact absurd h (ne_numbered hx y l)
  · rw [if_neg hk, if_pos hl] at h
    exact absurd h.symm (ne_numbered hy x k)
  · rw [if_neg hk, if_neg hl] at h
    exact numbered_inj hx h

theorem scopeNameOf_ne_globalName (x : String) (k : Nat) :
    scopeNameOf x k ≠ SymbolTable.globalName := by
  rw [scopeNameOf_eq]
  exact Typing.function_append_ne_globalName _

/-! ### The scopes of a program -/

namespace Function

/-- How many of the functions have the given name. -/
def count (x : String) (fs : List Function) : Nat :=
  fs.countP fun f => f.name == x

theorem count_append (x : String) (fs gs : List Function) :
    count x (fs ++ gs) = count x fs + count x gs :=
  List.countP_append

theorem count_pos_iff {x : String} {fs : List Function} :
    0 < count x fs ↔ x ∈ fs.map Function.name := by
  rw [count, List.countP_pos_iff, List.mem_map]
  simp only [beq_iff_eq]

/-- The scope of a function behind others. -/
def scopeBehind (before : List Function) (f : Function) : Scope :=
  ⟨scopeNameOf f.name (count f.name before + 1), some SymbolTable.globalName,
    Symbol.firsts f.symbols⟩

/-- The scopes of functions behind others, in their order. -/
def scopesBehind (before : List Function) : List Function → List Scope
  | [] => []
  | f :: fs => f.scopeBehind before :: scopesBehind (before ++ [f]) fs

/-- The `scopesBehind` functions one behind the other, where the first ones count for the others. -/
theorem scopesBehind_append (before fs gs : List Function) :
    scopesBehind before (fs ++ gs) = scopesBehind before fs ++ scopesBehind (before ++ fs) gs := by
  induction fs generalizing before with
  | nil => rw [List.nil_append, List.append_nil, scopesBehind, List.nil_append]
  | cons f fs ih =>
    rw [List.cons_append, scopesBehind, scopesBehind, ih, List.cons_append, List.append_assoc,
      List.singleton_append]

theorem length_scopesBehind (before fs : List Function) :
    (scopesBehind before fs).length = fs.length := by
  induction fs generalizing before with
  | nil => rfl
  | cons f fs ih => rw [scopesBehind, List.length_cons, ih, List.length_cons]

theorem getElem?_scopesBehind (before fs : List Function) (j : Nat) :
    (scopesBehind before fs)[j]? = fs[j]?.map (scopeBehind (before ++ fs.take j)) := by
  induction fs generalizing before j with
  | nil => rfl
  | cons f fs ih =>
    cases j with
    | zero =>
      show some (f.scopeBehind before) = some (f.scopeBehind (before ++ []))
      rw [List.append_nil]
    | succ j =>
      rw [scopesBehind, List.getElem?_cons_succ, List.getElem?_cons_succ, List.take_succ_cons, ih,
        List.append_assoc, List.singleton_append]

/-- Each of `scopesBehind` belongs to a function, and shows how often its name was declared
before. -/
theorem exists_of_mem_scopesBehind {before fs : List Function} {scope : Scope}
    (h : scope ∈ scopesBehind before fs) :
    ∃ lead f rest, fs = lead ++ f :: rest ∧ scope = f.scopeBehind (before ++ lead) := by
  induction fs generalizing before with
  | nil => cases h
  | cons f fs ih =>
    rw [scopesBehind, List.mem_cons] at h
    rcases h with rfl | h
    · exact ⟨[], f, fs, rfl, by rw [List.append_nil]⟩
    · obtain ⟨lead, g, rest, rfl, hscope⟩ := ih h
      rw [List.append_assoc, List.singleton_append] at hscope
      exact ⟨f :: lead, g, rest, rfl, hscope⟩

/-- The scope of one more function has a new name. -/
theorem name_not_mem_scopesBehind {fs : List Function} {f : Function} (hf : f.Unnumbered)
    (hfs : ∀ g ∈ fs, g.Unnumbered) :
    (f.scopeBehind fs).name ∉ (scopesBehind [] fs).map Scope.name := by
  intro hmem
  obtain ⟨scope, hscope, hname⟩ := List.mem_map.1 hmem
  obtain ⟨lead, g, rest, rfl, rfl⟩ := exists_of_mem_scopesBehind hscope
  have hg : g.Unnumbered := hfs g (List.mem_append_right _ List.mem_cons_self)
  obtain ⟨hsame, hnumber⟩ := scopeNameOf_inj hg hf hname
  -- there is one function more of the name in the whole list than in front of the other
  rw [List.nil_append, ← hsame, count_append] at hnumber
  have hpos : 0 < count g.name (g :: rest) := count_pos_iff.2 List.mem_cons_self
  omega

/-- The scopes of functions without number signs in their names have different names. -/
theorem nodup_name_scopesBehind {fs : List Function} (h : ∀ f ∈ fs, f.Unnumbered) :
    ((scopesBehind [] fs).map Scope.name).Nodup := by
  induction fs using List.reverseRecOn with
  | nil => exact List.nodup_nil
  | append_singleton fs f ih =>
    obtain ⟨hfs, hf⟩ := List.forall_mem_append.1 h
    have hnew := name_not_mem_scopesBehind (hf f List.mem_cons_self) hfs
    rw [scopesBehind_append, List.map_append, List.nil_append]
    refine List.nodup_append.2 ⟨ih hfs, List.nodup_singleton _, fun x hx y hy => ?_⟩
    obtain rfl : y = (f.scopeBehind fs).name := List.mem_singleton.1 hy
    exact ne_of_mem_of_not_mem hx hnew

theorem flatMap_symbols_scopesBehind (before fs : List Function) :
    (scopesBehind before fs).flatMap Scope.symbols =
      fs.flatMap fun f => Symbol.firsts f.symbols := by
  induction fs generalizing before with
  | nil => rfl
  | cons f fs ih =>
    rw [scopesBehind, List.flatMap_cons, List.flatMap_cons, ih]
    rfl

end Function

namespace Typing

open Tricode.Function

theorem names_globals_visiting (fs : List Function) (x : String) :
    ((fs.foldl Context.visiting .empty).table.globals.find? x).isSome = true ↔ 0 < count x fs := by
  have hempty : names Context.empty.table.globals = [] := rfl
  rw [find?_isSome_iff, globals_foldl_visiting, Scope.mem_names_addAll, hempty, count_pos_iff,
    List.map_map]
  simp only [List.not_mem_nil, false_or]
  rfl

/-- The numbers tell how often each name has been declared, unless that is once or never. -/
theorem lookup_declarations_visiting (fs : List Function) (x : String) :
    ((fs.foldl Context.visiting .empty).declarations.lookup x).getD 1 = max 1 (count x fs) := by
  induction fs using List.reverseRecOn with
  | nil => rfl
  | append_singleton fs f ih =>
    rw [List.foldl_append, List.foldl_cons, List.foldl_nil, count_append]
    generalize hcontext : fs.foldl Context.visiting .empty = context at ih
    have hdeclarations : (context.visiting f).declarations = (context.declaring f).declarations :=
      rfl
    rw [hdeclarations, Context.declaring]
    have htaken := names_globals_visiting fs f.name
    rw [hcontext] at htaken
    by_cases hx : f.name = x
    · subst hx
      have hone : count f.name [f] = 1 := by simp [count]
      split
      · next hfound =>
        -- the name has been declared before, and the number is one more
        have hpos := htaken.1 hfound
        rw [List.lookup_cons_self, Option.getD_some, Context.number, ih, hone]
        omega
      · next hfound =>
        have hzero : ¬ 0 < count f.name fs := mt htaken.2 hfound
        show (context.declarations.lookup f.name).getD 1 = _
        rw [ih, hone]
        omega
    · have hzero : count x [f] = 0 := by simp [count, hx]
      have hne : (x == f.name) = false := by simpa using Ne.symm hx
      rw [hzero, Nat.add_zero, ← ih]
      split
      · rw [List.lookup_cons, hne]
      · rfl

/-- `scopeName` shows how often the name of the function was declared. -/
theorem scopeName_visiting (fs : List Function) (x : String) :
    (fs.foldl Context.visiting .empty).scopeName x = scopeNameOf x (count x fs + 1) := by
  have htaken := names_globals_visiting fs x
  have hnumber := lookup_declarations_visiting fs x
  unfold Context.scopeName Context.number scopeNameOf
  split
  · next hfound =>
    have hpos := htaken.1 hfound
    rw [hnumber, if_neg (by omega), Nat.max_eq_right hpos]
    rfl
  · next hfound =>
    have hzero : ¬ 0 < count x fs := mt htaken.2 hfound
    rw [if_pos (by omega)]
    rfl

/-- Behind visits to `Unnumbered` functions, the scopes in the table are those that `scopesBehind`
lists. -/
theorem locals_visiting {fs : List Function} (h : ∀ f ∈ fs, f.Unnumbered) :
    (fs.foldl Context.visiting .empty).table.locals = scopesBehind [] fs := by
  induction fs using List.reverseRecOn with
  | nil => rfl
  | append_singleton fs f ih =>
    obtain ⟨hfs, hf⟩ := List.forall_mem_append.1 h
    have hlocals := ih hfs
    have hname := scopeName_visiting fs f.name
    rw [List.foldl_append, List.foldl_cons, List.foldl_nil, scopesBehind_append, List.nil_append]
    generalize fs.foldl Context.visiting .empty = context at hlocals hname
    have hscope : f.scopeNamed (context.scopeName f.name) = f.scopeBehind fs := by
      rw [f.scopeNamed_eq, hname]
      rfl
    have hdeclaring : (context.declaring f).table.locals = context.table.locals := by
      unfold Context.declaring
      split <;> rfl
    -- the name of the scope is new, so the scope is added at the end
    have hnew : (f.scopeBehind fs).name ∉ (context.declaring f).table.locals.map Scope.name := by
      rw [hdeclaring, hlocals]
      exact name_not_mem_scopesBehind (hf f List.mem_cons_self) hfs
    have hput := SymbolTable.put_of_not_mem (scopeNameOf_ne_globalName _ _) hnew
    rw [Context.visiting, hscope, hput, hdeclaring, hlocals]
    rfl

theorem current_visiting (fs : List Function) :
    (fs.foldl Context.visiting .empty).table.current = SymbolTable.globalName := by
  induction fs using List.reverseRecOn with
  | nil => rfl
  | append_singleton fs f ih =>
    rw [List.foldl_append, List.foldl_cons, List.foldl_nil, ← ih, Context.visiting,
      SymbolTable.current_put, Context.declaring]
    split <;> rfl

end Typing

/-- What the checker makes of a program, with the first binding of each name in each scope. -/
structure Program.FirstBindings (p : Program) (a : Analysis) : Prop where
  fault : a.fault = none
  current : a.table.current = "global"
  /-- The global scope holds the first function of each name. -/
  globals : a.table.globals = ⟨"global", none, Symbol.firsts (p.functions.map Function.symbol)⟩
  /-- There is one scope for each function, -/
  length : a.table.locals.length = p.functions.length
  /-- in the order of the functions, and with the first symbol of each name in the function. -/
  scopes : ∀ (j : Nat) (f : Function), p.functions[j]? = some f →
    a.table.locals[j]? =
      some ⟨scopeNameOf f.name (Function.count f.name (p.functions.take j) + 1), some "global",
        Symbol.firsts f.symbols⟩
  /-- The scopes have different names. -/
  distinct : (a.table.scopes.map Scope.name).Nodup
  /-- Each declaration is in a scope or is reported. -/
  reported : a.findings.countP Finding.redeclares + (a.table.scopes.flatMap Scope.symbols).length =
    p.functions.length + (p.functions.flatMap Function.symbols).length

/-- With `Unnumbered` functions, a program has the table of its first bindings. -/
theorem firstBindings_of_unnumbered {p : Program} (h : ∀ f ∈ p.functions, f.Unnumbered) :
    p.FirstBindings (analyze p) := by
  obtain ⟨htable, hfault, hcount⟩ := analyze_visiting p
  have hglobals := Typing.globals_foldl_visiting p.functions .empty
  have hlocals := Typing.locals_visiting h
  have hcurrent := Typing.current_visiting p.functions
  rw [← htable] at hglobals hlocals hcurrent
  have hempty : Typing.Context.empty.table.globals = ⟨SymbolTable.globalName, none, []⟩ := rfl
  rw [hempty, Scope.addAll_empty] at hglobals
  refine ⟨hfault, hcurrent, hglobals, ?_, ?_, ?_, ?_⟩
  · rw [hlocals, Function.length_scopesBehind]
  · intro j f hf
    rw [hlocals, Function.getElem?_scopesBehind, hf]
    rfl
  · rw [SymbolTable.scopes, List.map_cons, hglobals, hlocals, List.nodup_cons]
    -- no function has a scope with the name of the global one
    refine ⟨fun hmem => ?_, Function.nodup_name_scopesBehind h⟩
    obtain ⟨scope, hscope, hname⟩ := List.mem_map.1 hmem
    obtain ⟨lead, f, rest, -, rfl⟩ := Function.exists_of_mem_scopesBehind hscope
    exact scopeNameOf_ne_globalName _ _ hname
  · rw [SymbolTable.scopes, List.flatMap_cons, List.length_append, hlocals,
      Function.flatMap_symbols_scopesBehind]
    omega

/-- The symbol table of a source text is that of the `FirstBindings`, whatever is wrong with the
text. -/
theorem firstBindings_analyze (source : String) :
    (parse (scan source).1).1.FirstBindings (analyze (parse (scan source).1).1) :=
  firstBindings_of_unnumbered (unnumbered_parse source)

end Tricode
