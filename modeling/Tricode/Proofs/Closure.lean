import Tricode.Proofs.Compilation
import Tricode.Proofs.Lowering.Frame
import Tricode.Proofs.Lowering.Layout
import Tricode.Proofs.Typing.Table

/-!
# Compiled code is closed

In a text that compiles without a finding, the block of a function mentions only what is there
(`closed_of_clean`): what it reads is a literal, a name in the scope of the function, or a temporary
that the block computes before; what it assigns or declares is in the scope; it calls only functions
that stand in front of it, or itself, with as many arguments as they have parameters; every argument
is passed to exactly one call; and it returns without a value only if the function has none.

The program is well typed, so the code of each body is made inside the frame of its function
(`Frame.makes_blockCode`). Here the frame is read off the symbol table, which holds the functions of
the program with their scopes (`table_of_clean`).
-/

namespace Tricode

/-- What can be read at a place of a block: a literal, a name of the scope, or a temporary that is
computed in front of the place. -/
def Available (scope : Scope) (code : List Instr) (i : Nat) (x : String) : Prop :=
  (literalKind? x).isSome = true ∨ x ∈ Typing.names scope ∨
    ∃ j < i, ∃ instr, code[j]? = some instr ∧ ∃ n ∈ instr.result?, x = tempName n

/-- The name stands for a function with so many parameters. -/
def SymbolTable.DeclaresFunction (table : SymbolTable) (name : String) (count : Nat) : Prop :=
  ∃ symbol signature, table.globals.find? name = some symbol ∧ symbol.signature? = some signature ∧
    signature.params.length = count

/-- The first function begins where the second begins, or in front of it. -/
def BeginsBy (code : List Instr) (name name' : String) : Prop :=
  ∃ i j, Machine.entry code name = some i ∧ Machine.entry code name' = some j ∧ i ≤ j

/-- The block of a function mentions only what is there. -/
structure Function.ClosedIn (table : SymbolTable) (scope : Scope) (code : List Instr)
    (f : Function) :
    Prop where
  begins : (block code f.name).head? = some (.functionStart f.name)
  operands : ∀ i instr, (block code f.name)[i]? = some instr → ∀ x ∈ instr.reads,
    Available scope (block code f.name) i x
  assignees : ∀ instr ∈ block code f.name, ∀ x ∈ instr.assignee?, x ∈ Typing.names scope
  calls : ∀ i dest callee count, (block code f.name)[i]? = some (.call dest callee count) →
    passedBefore (block code f.name) i = count ∧ table.DeclaresFunction callee count ∧
      BeginsBy code callee f.name
  arguments : ∀ j x, (block code f.name)[j]? = some (.param x) → ∃! i, Takes (block code f.name) i j
  returns : .ret none ∈ block code f.name → f.result = .void

/-- The code mentions only what is there: each function of the program has a scope in the table,
under which its block is closed. -/
def Compilation.Closed (c : Compilation) : Prop :=
  ∃ p table, c.program = some p ∧ c.table = some table ∧ ∀ f ∈ p.functions,
    ∃ scope, table.scope? ("function_" ++ f.name) = some scope ∧ f.ClosedIn table scope c.code

/-! ### Where functions begin -/

namespace Machine

/-- The `entry` of a function is where the code of those in front of it ends. -/
theorem entry_append_cons {before after : List Function} {f : Function}
    (hnames : ((before ++ f :: after).map Function.name).Nodup) :
    entry (Function.codeAll 0 0 (before ++ f :: after)) f.name =
      some (Function.codeAll 0 0 before).length := by
  refine entry_codeAll hnames ?_
  obtain ⟨l, happend⟩ := Function.codeAll_append before (f :: after) 0 0
  rw [happend, List.getElem?_append_right (Nat.le_refl _), Nat.sub_self]
  rfl

end Machine

/-- A function that is declared no later than `f` begins no later in the code. -/
theorem beginsBy_codeAll {before after : List Function} {f g : Function}
    (hnames : ((before ++ f :: after).map Function.name).Nodup) (hg : g ∈ before ++ [f]) :
    BeginsBy (Function.codeAll 0 0 (before ++ f :: after)) g.name f.name := by
  have hf := Machine.entry_append_cons hnames
  rw [List.mem_append, List.mem_singleton] at hg
  rcases hg with hg | rfl
  -- `g` splits the functions in front of `f`, and begins where the code of the first part ends
  · obtain ⟨front, back, rfl⟩ := List.append_of_mem hg
    obtain ⟨l, happend⟩ := Function.codeAll_append front (g :: back) 0 0
    have hentry : Machine.entry (Function.codeAll 0 0 ((front ++ g :: back) ++ f :: after)) g.name =
        some (Function.codeAll 0 0 front).length := by
      rw [List.append_assoc, List.cons_append] at hnames ⊢
      exact Machine.entry_append_cons hnames
    refine ⟨_, _, hentry, hf, ?_⟩
    rw [happend, List.length_append]
    exact Nat.le_add_right _ _
  · exact ⟨_, _, hf, hf, Nat.le_refl _⟩

/-! ### Blocks in their frames -/

/-- The frame of a function behind others. -/
def Function.frame (before : List Function) (f : Function) : Frame :=
  ⟨f.variables, before ++ [f], f.result, Function.tempsAll before⟩

/-- The body of a well-typed function is lowered inside the `frame` of the function. -/
theorem Program.makes_body {p : Program} (hwell : p.WellFormed) (htyped : p.WellTyped)
    {before after : List Function} {f : Function} (hp : p.functions = before ++ f :: after)
    (l : Nat) :
    ∃ k, (f.frame before).Makes (Function.tempsAll before)
      (.functionStart f.name :: f.body.code (Function.tempsAll before) l) k := by
  have hf : f ∈ p.functions := by simp [hp]
  have hbody := Frame.makes_blockCode (F := f.frame before) f.body (Function.tempsAll before) l
    (Nat.le_refl _) (htyped.functions before f after hp).body
    (fun e he => ⟨hwell.resolved f hf e he, hwell.literals f hf e he⟩)
    (fun x hx => List.mem_append_right _ hx)
  exact ⟨_, .cons trivial rfl rfl rfl hbody⟩

/-- What can be read in a `Frame` is `Available`, if the names of the frame are in the scope and its
temporaries are computed in front of the place. -/
theorem Frame.Readable.available {F : Frame} {n : Nat} {x : String} (h : F.Readable n x)
    {scope : Scope} (hvars : ∀ y ∈ F.vars, y ∈ Typing.names scope) {code : List Instr} {i : Nat}
    (hcomputed : ∀ m, F.first ≤ m → m < n → m ∈ (code.take i).filterMap Instr.result?) :
    Available scope code i x := by
  rcases h with h | h | ⟨m, hfirst, hm, rfl⟩
  · exact .inl h
  · exact .inr (.inl (hvars x h))
  · obtain ⟨instr, hinstr, hresult⟩ := List.mem_filterMap.1 (hcomputed m hfirst hm)
    obtain ⟨j, hj⟩ := List.mem_iff_getElem?.1 hinstr
    rw [List.getElem?_take, Option.ite_none_right_eq_some] at hj
    exact .inr (.inr ⟨j, hj.1, instr, hj.2, m, hresult, rfl⟩)

/-- A function that may be called is in the table `ofFunctions` makes. -/
theorem declaresFunction_ofFunctions {fs : List Function} (hnames : (fs.map Function.name).Nodup)
    {g : Function} (hg : g ∈ fs) :
    (SymbolTable.ofFunctions fs).DeclaresFunction g.name g.params.length :=
  ⟨g.symbol, ⟨g.params, g.result⟩, SymbolTable.find?_ofFunctions hnames hg, rfl, rfl⟩

/-- The block of each function of a well-typed program is `ClosedIn` its scope. -/
theorem Program.closedIn {p : Program} (hwell : p.WellFormed) (htyped : p.WellTyped) {f : Function}
    (hf : f ∈ p.functions) :
    f.ClosedIn (.ofFunctions p.functions) f.scope (Function.codeAll 0 0 p.functions) := by
  obtain ⟨before, after, hp⟩ := List.append_of_mem hf
  have hnames := hwell.names_nodup
  have hname : f.name ∉ before.map Function.name := Function.name_not_mem_of_nodup (hp ▸ hnames)
  obtain ⟨l, hblock⟩ := block_codeAll after hname 0 0
  rw [← hp, Nat.zero_add] at hblock
  obtain ⟨k, hmakes⟩ := Program.makes_body hwell htyped hp l
  rw [← hblock] at hmakes
  -- each instruction of the block is one that the frame of the function admits
  have hadmits : ∀ instr ∈ block (Function.codeAll 0 0 p.functions) f.name,
      ∃ n, (f.frame before).Admits n instr := by
    intro instr hinstr
    obtain ⟨i, hi⟩ := List.mem_iff_getElem?.1 hinstr
    obtain ⟨n, hn, -⟩ := hmakes.exists_admits hi
    exact ⟨n, hn⟩
  constructor
  case begins => rw [hblock, List.head?_cons]
  case operands =>
    intro i instr hi x hx
    obtain ⟨n, hn, hcomputed⟩ := hmakes.exists_admits hi
    exact (hn.readable x hx).available (fun y hy => Function.mem_names_scope.2 hy) hcomputed
  case assignees =>
    intro instr hinstr x hx
    obtain ⟨n, hn⟩ := hadmits instr hinstr
    exact Function.mem_names_scope.2 (hn.mem_vars hx)
  case calls =>
    intro i dest callee count hi
    obtain ⟨n, hn, -⟩ := hmakes.exists_admits hi
    obtain ⟨g, hg, rfl, rfl⟩ : ∃ g ∈ before ++ [f], g.name = callee ∧ g.params.length = count := hn
    -- the callee is declared up to `f`, so it is a function of the program
    have hgp : g ∈ p.functions := by
      rw [hp, List.append_cons]
      exact List.mem_append_left _ hg
    refine ⟨hmakes.passedBefore_eq hi rfl, declaresFunction_ofFunctions hnames hgp, ?_⟩
    rw [hp] at hnames ⊢
    exact beginsBy_codeAll hnames hg
  case arguments => exact fun j x hj => hmakes.existsUnique_takes hj
  case returns =>
    intro hmem
    obtain ⟨n, hn⟩ := hadmits _ hmem
    exact hn

/-- The code of a text in which nothing is found wrong mentions only what is there: its compilation
is `Closed`. -/
theorem closed_of_clean (options : Options) (source : String)
    (hclean : (compile options source).diagnostics = []) : (compile options source).Closed := by
  obtain ⟨hfindings, hwell, hprogram, htable, hcode⟩ := compile_phases_of_clean hclean
  have htyped := wellTyped_of_clean (shaped_parse source) hfindings
  rw [table_of_clean hfindings] at htable
  refine ⟨_, _, hprogram, htable, fun f hf => ⟨f.scope, ?_, ?_⟩⟩
  · exact SymbolTable.scope?_ofFunctions hwell.names_nodup hf
  · rw [hcode]
    exact Program.closedIn hwell htyped hf

/-- A text with calls inside calls, a call from inside itself, and a return without a value. -/
def calling : String :=
  "int add(int a, int b) \x7b return a + b; \x7d "
    ++ "void down(int n) \x7b if (n < 1) \x7b return; \x7d down(add(n, add(0, -1))); \x7d"

/-- Nothing is found wrong with `calling`, so its code mentions only what is there. -/
theorem closed_calling :
    (compile ⟨false, none⟩ calling).diagnostics = [] ∧ (compile ⟨false, none⟩ calling).Closed := by
  have hclean : (compile ⟨false, none⟩ calling).diagnostics = [] := by decide +kernel
  exact ⟨hclean, closed_of_clean ⟨false, none⟩ calling hclean⟩

end Tricode
