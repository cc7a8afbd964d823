import Tricode.Proofs.Compilation
import Tricode.Proofs.Lowering.Faults
import Tricode.Proofs.Typing.Findings

/-!
# No phase fails

A tree made by hand can make the checker and the code generator fail. The trees of source texts
cannot: the checker fails on no program at all (`analyze_apply`), and the code generator only on
programs in which something else than a name is called (`generate_cases`), which the checker finds
wrong. So compiling a text always comes to an end without a fault (`compile_fault_eq_none`).
-/

namespace Tricode

theorem Program.callsNames_of_findings {p : Program} (h : (analyze p).findings = []) :
    p.CallsNames :=
  fun f hf e he part hpart => (((analyze_apply p).2 h).2 f hf e he part hpart).1

/-- Something else than a name is called somewhere in the program. -/
theorem Program.not_callsNames_iff {p : Program} :
    ¬ p.CallsNames ↔ ∃ f ∈ p.functions, ∃ e ∈ f.body.exprs, ∃ callee args pos,
      .call callee args pos ∈ e.subterms ∧ ∀ x place, callee ≠ .ident x place := by
  simp only [Program.CallsNames, Expr.callsNames_iff, not_forall, exists_prop,
    Expr.not_callsName_iff]
  refine exists_congr fun f => and_congr_right fun _ => exists_congr fun e =>
    and_congr_right fun _ => ?_
  constructor
  · rintro ⟨_, hmem, callee, args, pos, rfl, hne⟩
    exact ⟨callee, args, pos, hmem, hne⟩
  · rintro ⟨callee, args, pos, hmem, hne⟩
    exact ⟨_, hmem, callee, args, pos, rfl, hne⟩

/-- `generate` fails exactly if something else than a name is called. -/
theorem exists_generate_error_iff {p : Program} :
    (∃ fault, generate p = .error fault) ↔ ¬ p.CallsNames := by
  rcases generate_cases p with ⟨hcalls, code, hcode⟩ | ⟨hcalls, fault, hfault, -⟩
  · exact iff_of_false (fun ⟨_, h⟩ => by simp [hcode] at h) (not_not_intro hcalls)
  · exact iff_of_true ⟨fault, hfault⟩ hcalls

/-- `generate` fails for want of a name only. -/
theorem Fault.nameless_of_generate {p : Program} {fault : Fault} (h : generate p = .error fault) :
    fault.Nameless := by
  rcases generate_cases p with ⟨-, code, hcode⟩ | ⟨-, fault', hfault, hnameless⟩
  · simp [hcode] at h
  · rw [hfault, Except.error.injEq] at h
    exact h ▸ hnameless

namespace Compilation

theorem fault_withSymbols (c : Compilation) (options : Options) (p : Program) :
    (c.withSymbols options p).fault = none := by
  by_cases hoverflow : options.overflow = some .check
  · simp [withSymbols, hoverflow]
  · simpa [withSymbols, hoverflow] using (analyze_apply p).1

theorem fault_withCode {c : Compilation} (hc : c.fault = none) (options : Options) {p : Program}
    (hp : p.CallsNames) : (c.withCode options p).fault = none := by
  unfold withCode
  split
  · exact hc
  · rw [generate_eq hp]
    exact hc

end Compilation

/-- `compile` ends without a fault. -/
theorem compile_fault_eq_none (options : Options) (source : String) :
    (compile options source).fault = none := by
  unfold compile
  dsimp only
  split
  · rfl
  split
  · rfl
  split
  · exact Compilation.fault_withSymbols _ options _
  -- code is generated only where nothing was found, and then only names are called
  · next hclean =>
    rw [Bool.or_eq_true, not_or] at hclean
    have htyping := Compilation.eq_nil_of_isEmpty hclean.1
    have hfindings := (Compilation.withSymbols_of_clean htyping).1
    exact Compilation.fault_withCode (Compilation.fault_withSymbols _ options _) options
      (Program.callsNames_of_findings hfindings)

/-- No phase fails on a source text. Parsing gives a program for all tokens. The checker runs to its
end on the program of every text, also of one with findings, and knows all its operators. What
`analyze` finds nothing wrong with is lowered by `generate`. Without regard to findings, a program
is not lowered exactly if something else than a name is called in it, and then for want of a
name. -/
theorem phases_total (options : Options) (source : String) :
    (compile options source).fault = none ∧
      (∀ ts, (Parser.program Parser.maxNesting ts).value = .ok (parse ts).1) ∧
      (analyze (parse (scan source).1).1).fault = none ∧
      (∀ found ∈ (analyze (parse (scan source).1).1).findings, ∀ op,
        found.cause ≠ .unknownUnary op ∧ found.cause ≠ .unknownBinary op) ∧
      ((analyze (parse (scan source).1).1).findings = [] →
        ∃ code, generate (parse (scan source).1).1 = .ok code) ∧
      ((∃ fault, generate (parse (scan source).1).1 = .error fault) ↔
        ∃ f ∈ (parse (scan source).1).1.functions, ∃ e ∈ f.body.exprs, ∃ callee args pos,
          .call callee args pos ∈ e.subterms ∧ ∀ x place, callee ≠ .ident x place) ∧
      ∀ fault, generate (parse (scan source).1).1 = .error fault →
        ∃ kind, fault = .nameless (some kind) := by
  refine ⟨compile_fault_eq_none options source, fun ts => Outcome.value_eq_ok_of_get rfl,
    (analyze_apply _).1, fun found hfound op => ?_, fun hclean => ?_, ?_,
    fun fault hfault => Fault.nameless_of_generate hfault⟩
  · have hknown := operatorKnown_of_mem_findings
      (fun f hf => (shaped_parse source f hf).body.exprs) hfound
    constructor
    · intro hcause
      rw [hcause] at hknown
      exact hknown
    · intro hcause
      rw [hcause] at hknown
      exact hknown
  · exact ⟨_, generate_eq (Program.callsNames_of_findings hclean)⟩
  · exact exists_generate_error_iff.trans Program.not_callsNames_iff

/-- A literal that is called has no name. -/
example : (generate (parse (scan "int f() \x7b return 1(2); \x7d").1).1).toOption = none := by
  decide +kernel

end Tricode
