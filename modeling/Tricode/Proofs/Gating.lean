import Tricode.Proofs.Lowering.Layout
import Tricode.Proofs.Totality
import Tricode.Proofs.Typing.Table

/-!
# Phases in turn

A compilation ends behind the first phase that finds something wrong, and each phase that may be the
last one leaves other fields empty (`Compilation.Ended`). Whatever the text is, and also if a late
phase runs out of stack, `compile_ended` tells which fields are there: findings come from one phase
only, there is a program exactly behind a clean scan, a table exactly behind a clean parse, and code
only where nothing was found (`Compilation.Gated`).

Where nothing was found, the phases agree on the functions: the program, the global scope, the other
scopes and the listing name the same functions in the same order (`Compilation.Agreed`).
-/

namespace Tricode

namespace Compilation

/-! ### The end of a compilation -/

/-- The phase that a compilation ended with, and what it left. -/
inductive Ended (c : Compilation) : Prop where
  | scanning (found : c.lexical ≠ []) (program : c.program = none) (grammar : c.grammar = [])
    (table : c.table = none) (typing : c.typing = []) (code : c.code = [])
  | parsing (lexical : c.lexical = []) (program : c.program.isSome) (found : c.grammar ≠ [])
    (table : c.table = none) (typing : c.typing = []) (code : c.code = [])
  /-- The checker found something, or else a phase ran out of stack. -/
  | checking (lexical : c.lexical = []) (program : c.program.isSome) (grammar : c.grammar = [])
    (table : c.table.isSome) (found : c.typing ≠ []) (code : c.code = [])
  | lowering (lexical : c.lexical = []) (program : c.program.isSome) (grammar : c.grammar = [])
    (table : c.table.isSome) (typing : c.typing = [])

theorem ne_nil_of_isEmpty {α : Type} {found : List α} (h : (!found.isEmpty) = true) :
    found ≠ [] := by
  simpa using h

/-- A phase that runs out of stack leaves the finding `tooDeep`. -/
theorem tooDeep_ne_nil (p : Program) : tooDeep p ≠ [] :=
  List.cons_ne_nil _ _

/-- Lowering ends a `Compilation` with `code` and no finding, or with a finding and no code. -/
theorem Ended.withCode {c : Compilation} (options : Options) (p : Program)
    (hlexical : c.lexical = [])
    (hprogram : c.program.isSome) (hgrammar : c.grammar = []) (htable : c.table.isSome)
    (htyping : c.typing = []) (hcode : c.code = []) : (c.withCode options p).Ended := by
  unfold Compilation.withCode
  split
  · exact .checking hlexical hprogram hgrammar htable (tooDeep_ne_nil p) hcode
  · split
    · exact .lowering hlexical hprogram hgrammar htable htyping
    · exact .lowering hlexical hprogram hgrammar htable htyping

end Compilation

/-- Every `compile` ends with one of the phases. -/
theorem compile_ended (options : Options) (source : String) : (compile options source).Ended := by
  unfold compile
  dsimp only
  split
  · next hfound => exact .scanning (Compilation.ne_nil_of_isEmpty hfound) rfl rfl rfl rfl rfl
  next hlexical =>
  replace hlexical := Compilation.eq_nil_of_isEmpty hlexical
  split
  · next hfound => exact .parsing hlexical rfl (Compilation.ne_nil_of_isEmpty hfound) rfl rfl rfl
  next hgrammar =>
  replace hgrammar := Compilation.eq_nil_of_isEmpty hgrammar
  -- the checker has no fault to end with, so it ends a compilation with a finding
  rw [Compilation.fault_withSymbols, Option.isSome_none, Bool.or_false]
  split
  · next hfound =>
      exact .checking hlexical rfl hgrammar rfl (Compilation.ne_nil_of_isEmpty hfound) rfl
  · next htyping =>
    exact .withCode options _ hlexical rfl hgrammar rfl (Compilation.eq_nil_of_isEmpty htyping) rfl

namespace Compilation

/-! ### What follows from it -/

/-- Which fields of a compilation are there, and which are empty. -/
structure Gated (c : Compilation) : Prop where
  /-- Only one phase has found something. -/
  lexical_or_grammar : c.lexical = [] ∨ c.grammar = []
  lexical_or_typing : c.lexical = [] ∨ c.typing = []
  grammar_or_typing : c.grammar = [] ∨ c.typing = []
  program_eq_none_iff : c.program = none ↔ c.lexical ≠ []
  table_eq_none_iff : c.table = none ↔ c.lexical ≠ [] ∨ c.grammar ≠ []
  code_eq_nil : c.diagnostics ≠ [] → c.code = []
  succeeded_iff : c.succeeded = true ↔ c.diagnostics = []

/-- With a program, a `Compilation` has `succeeded` exactly if it has no `diagnostics`. -/
theorem succeeded_iff_of_isSome {c : Compilation} (h : c.program.isSome) :
    c.succeeded = true ↔ c.diagnostics = [] := by
  rw [succeeded, h, Bool.and_true, List.isEmpty_iff]

/-- However a `Compilation` has `Ended`, it is `Gated`. -/
theorem Ended.gated {c : Compilation} (h : c.Ended) : c.Gated := by
  -- one case for each phase that can have ended the compilation
  cases h with
  | scanning found program grammar table typing code =>
    have hdiagnostics : c.diagnostics ≠ [] := fun h => found (diagnostics_eq_nil_iff.1 h).1
    refine ⟨.inr grammar, .inr typing, .inl grammar, iff_of_true program found,
      iff_of_true table (.inl found), fun _ => code, iff_of_false ?_ hdiagnostics⟩
    simp [succeeded, program]
  | parsing lexical program found table typing code =>
    have hprogram : c.program ≠ none := Option.isSome_iff_ne_none.1 program
    exact ⟨.inl lexical, .inl lexical, .inr typing, iff_of_false hprogram (not_not_intro lexical),
      iff_of_true table (.inr found), fun _ => code, succeeded_iff_of_isSome program⟩
  | checking lexical program grammar table found code =>
    have hprogram : c.program ≠ none := Option.isSome_iff_ne_none.1 program
    have htable : c.table ≠ none := Option.isSome_iff_ne_none.1 table
    exact ⟨.inl lexical, .inl lexical, .inl grammar, iff_of_false hprogram (not_not_intro lexical),
      iff_of_false htable (by simp [lexical, grammar]), fun _ => code,
      succeeded_iff_of_isSome program⟩
  | lowering lexical program grammar table typing =>
    have hprogram : c.program ≠ none := Option.isSome_iff_ne_none.1 program
    have htable : c.table ≠ none := Option.isSome_iff_ne_none.1 table
    have hdiagnostics : c.diagnostics = [] := diagnostics_eq_nil_iff.2 ⟨lexical, grammar, typing⟩
    exact ⟨.inl lexical, .inl lexical, .inl grammar, iff_of_false hprogram (not_not_intro lexical),
      iff_of_false htable (by simp [lexical, grammar]), fun h => absurd hdiagnostics h,
      succeeded_iff_of_isSome program⟩

/-! ### Agreement -/

/-- The program and the table, which the compilation has, and the code agree on the functions and on
their order. -/
structure Agreed (c : Compilation) (p : Program) (t : SymbolTable) : Prop where
  program : c.program = some p
  table : c.table = some t
  distinct : (p.functions.map Function.name).Nodup
  symbols : t.globals.symbols = p.functions.map Function.symbol
  scopes : t.scopes.map Scope.name = "global" :: p.functions.map fun f => "function_" ++ f.name
  starts : c.code.filterMap Instr.start? = p.functions.map Function.name
  lines : (c.code.filter fun i => i.start?.isSome).map Instr.line =
    p.functions.map fun f => "FUNCTION " ++ f.name ++ ":"

end Compilation

/-- The names of the scopes in `ofFunctions`: the global one, and one for each function. -/
theorem SymbolTable.map_name_scopes_ofFunctions (fs : List Function) :
    (ofFunctions fs).scopes.map Scope.name = "global" :: fs.map fun f => "function_" ++ f.name := by
  rw [ofFunctions, scopes, List.map_cons, List.map_map]
  congr 1
  exact List.map_congr_left fun f _ => f.name_scope

/-- The lines that begin functions, by `start?`, are those with their names. -/
theorem Instr.map_line_filter_start? (code : List Instr) :
    (code.filter fun i => i.start?.isSome).map Instr.line =
      (code.filterMap Instr.start?).map fun name => "FUNCTION " ++ name ++ ":" := by
  induction code with
  | nil => rfl
  | cons i code ih =>
    cases hi : i.start? with
    | none => rw [List.filter_cons_of_neg (by simp [hi]), List.filterMap_cons_none hi, ih]
    | some name =>
      rw [List.filter_cons_of_pos (by simp [hi]), List.filterMap_cons_some hi, List.map_cons,
        List.map_cons, ih]
      cases i <;> cases hi
      rfl

/-- Without findings, all phases have `Agreed` on the functions. -/
theorem agreed_of_clean {options : Options} {source : String}
    (h : (compile options source).diagnostics = []) :
    ∃ p table, (compile options source).Agreed p table := by
  obtain ⟨hfindings, hwell, hprogram, htable, hcode⟩ := compile_phases_of_clean h
  rw [table_of_clean hfindings] at htable
  -- the code is that of the functions, one behind the other
  have hstarts : (compile options source).code.filterMap Instr.start? =
      (parse (scan source).1).1.functions.map Function.name := by
    rw [hcode, Function.filterMap_start?_codeAll]
  refine ⟨_, _, hprogram, htable, hwell.names_nodup, rfl,
    SymbolTable.map_name_scopes_ofFunctions _, hstarts, ?_⟩
  rw [Instr.map_line_filter_start?, hstarts, List.map_map]
  rfl

/-- Every compilation comes to its end without a fault, also one in which a late phase runs out of
stack, and is `Gated`: at most one phase has findings, there is a program unless scanning has some,
there is a table unless scanning or parsing has some, there is no code if there are findings, and
the compilation succeeds exactly if there are none. Then all that is shown is `Agreed`: the
functions have different names, and the program, the global scope, the other scopes and the listing
have them in the same order. -/
theorem compile_gated (options : Options) (source : String) :
    (compile options source).fault = none ∧ (compile options source).Gated ∧
      ((compile options source).diagnostics = [] →
        ∃ p table, (compile options source).Agreed p table) :=
  ⟨compile_fault_eq_none options source, (compile_ended options source).gated, agreed_of_clean⟩

/-- Two functions, of which the second calls the first. -/
def calledBehind : String :=
  "int one() \x7b return 1; \x7d int two() \x7b return one() + one(); \x7d"

/-- Nothing is found wrong with `calledBehind` unless a phase runs out of stack, and then there is
no `code`. -/
theorem compile_gated_calledBehind :
    ((compile ⟨false, none⟩ calledBehind).diagnostics = [] ∧
      ∃ p table, (compile ⟨false, none⟩ calledBehind).Agreed p table ∧
        p.functions.map Function.name = ["one", "two"]) ∧
    ∀ phase, (compile ⟨false, some phase⟩ calledBehind).diagnostics ≠ [] ∧
      (compile ⟨false, some phase⟩ calledBehind).code = [] := by
  constructor
  · have hclean : (compile ⟨false, none⟩ calledBehind).diagnostics = [] := by decide +kernel
    obtain ⟨p, table, hagreed⟩ := (compile_gated ⟨false, none⟩ calledBehind).2.2 hclean
    refine ⟨hclean, p, table, hagreed, ?_⟩
    rw [← hagreed.starts]
    decide +kernel
  · intro phase
    have hfound : (compile ⟨false, some phase⟩ calledBehind).diagnostics ≠ [] := by
      -- each of the phases that can run out of stack leaves its finding
      cases phase <;> decide +kernel
    exact ⟨hfound, (compile_gated ⟨false, some phase⟩ calledBehind).2.1.code_eq_nil hfound⟩

end Tricode
