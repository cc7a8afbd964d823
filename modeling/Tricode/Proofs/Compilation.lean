import Tricode.Compilation
import Tricode.Proofs.Lexemes
import Tricode.Proofs.Lowering.Code
import Tricode.Proofs.Typing.Resolution

/-!
# What a clean compilation tells

`compile_phases_of_clean`: where nothing is found wrong with a source text, there is a program, it
is well formed, the table is the one that the checker leaves, and the code is the code of its
functions. In particular no phase fails on it.
-/

namespace Tricode

/-- What is known about a program in which nothing was found wrong. -/
structure Program.WellFormed (p : Program) : Prop where
  /-- No two functions have the same name. -/
  names_nodup : (p.functions.map Function.name).Nodup
  /-- Names are what they are used as. -/
  resolved : ∀ f ∈ p.functions, ∀ e ∈ f.body.exprs, e.Resolved f.variables
  /-- Literals are spelled like literals of their kinds. -/
  literals : ∀ f ∈ p.functions, ∀ e ∈ f.body.exprs, e.LiteralsSpelled
  /-- Variables are not spelled like literals. -/
  plain : ∀ f ∈ p.functions, ∀ x ∈ f.variables, literalKind? x = none

theorem Program.WellFormed.callsNames {p : Program} (h : p.WellFormed) : p.CallsNames :=
  fun f hf e he part hpart => (h.resolved f hf e he part hpart).1

/-- A program that was scanned, parsed and checked without findings is `WellFormed`. -/
theorem wellFormed_of_phases {source : String} {p : Program}
    (hparse : parse (scan source).1 = (p, [])) (hanalyze : (analyze p).findings = []) :
    p.WellFormed := by
  obtain ⟨ts, stop, hscan, hstop, hts⟩ := scan_eq source
  rw [hscan, parse_eq_iff_yields, ← derives_iff_yields (fun t ht => (hts t ht).1) hstop] at hparse
  have hspelled := hparse.1.spelled fun t ht => (hts t ht).2
  obtain ⟨hnames, hresolved⟩ := (analyze_apply p).2 hanalyze
  exact ⟨hnames, hresolved, fun f hf => (hspelled f hf).1, fun f hf => (hspelled f hf).2⟩

namespace Compilation

theorem eq_nil_of_isEmpty {α : Type} {found : List α} (h : ¬ (!found.isEmpty) = true) :
    found = [] := by
  simpa using h

/-- A `Compilation` has no `diagnostics` exactly if no phase has found anything. -/
theorem diagnostics_eq_nil_iff {c : Compilation} :
    c.diagnostics = [] ↔ c.lexical = [] ∧ c.grammar = [] ∧ c.typing = [] := by
  simp [diagnostics]

/-- Where `withSymbols` leaves no finding, the checker has run and has found nothing. -/
theorem withSymbols_of_clean {c : Compilation} {options : Options} {p : Program}
    (h : (c.withSymbols options p).typing = []) :
    (analyze p).findings = [] ∧ (c.withSymbols options p).fault = none ∧
      (c.withSymbols options p).table = some (analyze p).table := by
  by_cases hoverflow : options.overflow = some .check
  · simp [withSymbols, hoverflow, tooDeep] at h
  · have hfindings : (analyze p).findings = [] := by simpa [withSymbols, hoverflow] using h
    refine ⟨hfindings, ?_, ?_⟩
    · simpa [withSymbols, hoverflow] using (analyze_apply p).1
    · simp [withSymbols, hoverflow]

/-- Where `withCode` leaves no finding, the code generator has run. -/
theorem withCode_of_clean {c : Compilation} {options : Options} {p : Program} (hp : p.CallsNames)
    (h : (c.withCode options p).typing = []) :
    (c.withCode options p).code = Function.codeAll 0 0 p.functions ∧
      (c.withCode options p).program = c.program ∧ (c.withCode options p).table = c.table := by
  by_cases hoverflow : options.overflow = some .lower
  · simp [withCode, hoverflow, tooDeep] at h
  · simp [withCode, hoverflow, generate_eq hp]

end Compilation

/-- A source text in which nothing is found wrong has a `WellFormed` program, which is checked and
lowered. -/
theorem compile_phases_of_clean {options : Options} {source : String}
    (h : (compile options source).diagnostics = []) :
    (analyze (parse (scan source).1).1).findings = [] ∧ (parse (scan source).1).1.WellFormed ∧
      (compile options source).program = some (parse (scan source).1).1 ∧
      (compile options source).table = some (analyze (parse (scan source).1).1).table ∧
      (compile options source).code = Function.codeAll 0 0 (parse (scan source).1).1.functions := by
  rw [Compilation.diagnostics_eq_nil_iff] at h
  obtain ⟨hlexical, hgrammar, htyping⟩ := h
  have htokens : (Compilation.ofSource options source).tokens = (scan source).1 := rfl
  rcases hparse : parse (scan source).1 with ⟨p, found⟩
  simp only [compile, htokens, hparse] at hlexical hgrammar htyping ⊢
  -- a phase that is the last to run has found something, which a clean compilation excludes
  split at htyping
  · next hne =>
    rw [if_pos hne] at hlexical
    simp [hlexical] at hne
  · next hempty =>
    rw [if_neg hempty] at hgrammar ⊢
    split at htyping
    · next hne =>
      rw [if_pos hne] at hgrammar
      simp only [Compilation.withProgram] at hgrammar
      simp [hgrammar] at hne
    · next hempty' =>
      rw [if_neg hempty']
      split at htyping
      · next hne =>
        obtain ⟨-, hfault, -⟩ := Compilation.withSymbols_of_clean htyping
        simp [htyping, hfault] at hne
      · next hclean =>
        rw [if_neg hclean]
        rw [Bool.or_eq_true, not_or] at hclean
        rw [Compilation.eq_nil_of_isEmpty hempty'] at hparse
        obtain ⟨hfindings, -, htable⟩ :=
          Compilation.withSymbols_of_clean (Compilation.eq_nil_of_isEmpty hclean.1)
        have hwell := wellFormed_of_phases hparse hfindings
        obtain ⟨hcode, hprogram, hkept⟩ := Compilation.withCode_of_clean hwell.callsNames htyping
        exact ⟨hfindings, hwell, hprogram, hkept.trans htable, hcode⟩

/-- The program of a text in which nothing is found wrong is the one that was parsed; it is
`WellFormed`, and its `code` is that of its functions. -/
theorem compile_of_clean {options : Options} {source : String}
    (h : (compile options source).diagnostics = []) :
    (compile options source).program = some (parse (scan source).1).1 ∧
      (parse (scan source).1).1.WellFormed ∧
      (compile options source).code = Function.codeAll 0 0 (parse (scan source).1).1.functions := by
  obtain ⟨-, hwell, hprogram, -, hcode⟩ := compile_phases_of_clean h
  exact ⟨hprogram, hwell, hcode⟩

/-- The program of a source text in which nothing is found wrong is `WellFormed`, and the code is
that of its functions. -/
theorem wellFormed_of_clean {options : Options} {source : String}
    (h : (compile options source).diagnostics = []) {p : Program}
    (hp : (compile options source).program = some p) :
    p.WellFormed ∧ (compile options source).code = Function.codeAll 0 0 p.functions := by
  obtain ⟨hprogram, hwell, hcode⟩ := compile_of_clean h
  rw [hp, Option.some.injEq] at hprogram
  exact hprogram ▸ ⟨hwell, hcode⟩

end Tricode
