import Tricode.Proofs.Compilation
import Tricode.Proofs.Lowering.Layout
import Tricode.Proofs.Simulation.Stmt

/-!
# Compiled functions compute what their sources compute

`runAll_iff_halts_compiled`: in a text that compiles without a finding, the body of a function ends
with some outcome and some values of its variables exactly if its code does, under every meaning of
literals, operators and calls. Two things are asked of the function: that none of its variables has
the name of a temporary, and that no operand is overtaken by a later one.
-/

namespace Tricode

open Machine

/-- The expressions of a `WellFormed` program are `Runnable`, if their operands outlast one
another. -/
theorem Program.WellFormed.runnable {p : Program} (h : p.WellFormed) {f : Function}
    (hf : f ∈ p.functions) (hsettled : ∀ e ∈ f.body.exprs, e.Settled) :
    ∀ e ∈ f.body.exprs, e.Runnable f.variables := by
  intro e he part hpart
  refine ⟨?_, hsettled e he part hpart⟩
  have hliteral := h.literals f hf e he part hpart
  have hholder := (h.resolved f hf e he part hpart).2
  cases part with
  | literal kind text pos => exact hliteral
  | ident x pos => exact hholder x rfl
  | assign x e pos => exact hholder x rfl
  | _ => trivial

/-- The body of a function ends as its `code` does, with the same values of the variables: it has a
run, in the sense of `Stmt.RunAll`, exactly if the machine `Halts` from the `entry` of the function.
-/
theorem runAll_iff_halts_compiled {V : Type} (I : Interpretation V) (options : Options)
    (source : String) (hclean : (compile options source).diagnostics = []) (p : Program)
    (hp : (compile options source).program = some p) (f : Function) (hf : f ∈ p.functions)
    (hnames : ∀ x ∈ f.variables, ∀ n, x ≠ tempName n) (hsettled : ∀ e ∈ f.body.exprs, e.Settled)
    (ρ σ : Env V) (hagree : ∀ x ∈ f.variables, σ x = ρ x) (o : Ending V) (final : Env V) :
    (∃ ρ', Stmt.RunAll I f.body.statements ρ o ρ' ∧ ∀ x ∈ f.variables, final x = ρ' x) ↔
      ∃ pc σ', entry (compile options source).code f.name = some pc ∧
        Halts I (compile options source).code ⟨pc, σ, []⟩ o σ' ∧
        ∀ x ∈ f.variables, final x = σ' x := by
  obtain ⟨hwell, hcode⟩ := wellFormed_of_clean hclean hp
  obtain ⟨before, after, hfunctions⟩ := List.append_of_mem hf
  obtain ⟨pc, l, hat⟩ := Function.at_codeAll before after f 0 0
  rw [← hfunctions, ← hcode] at hat
  have hentry : entry (compile options source).code f.name = some pc := by
    rw [hcode] at hat ⊢
    exact entry_codeAll hwell.names_nodup (at_cons_iff.1 hat).1
  -- every jump leads to the place of its label
  have hresolves : Resolves (compile options source).code := by
    rw [hcode]
    exact fun pc n h => target_codeAll p.functions h
  have hplain : PlainNames f.variables := fun x hx => ⟨hwell.plain f hf x hx, hnames x hx⟩
  have hbody := runAll_iff_halts (I := I) hplain hresolves (hwell.runnable hf hsettled)
    (fun x hx => List.mem_append_right _ hx) hat hagree o final
  constructor
  · intro hrun
    obtain ⟨σ', hhalts, hfinal⟩ := hbody.1 hrun
    exact ⟨pc, σ', hentry, hhalts, hfinal⟩
  · rintro ⟨pc', σ', hentry', hhalts, hfinal⟩
    -- the function is entered at one place
    obtain rfl := Option.some.inj (hentry.symm.trans hentry')
    exact hbody.2 ⟨σ', hhalts, hfinal⟩

/-- Truth values, with every operation read as a conjunction. -/
def conjunctions : Interpretation Bool where
  literal _ text := text == "true"
  unary _ a := a
  binary _ a b := a && b
  call _ args := args.all id
  truth a := a
  undefined := false

/-- A function with a loop that clears its own condition. -/
def clearing : String := "void f(bool b) \x7b while (b) \x7b b = false; \x7d \x7d"

/-- The `code` of `clearing`. -/
theorem code_clearing : (compile ⟨false, none⟩ clearing).code =
    [.functionStart "f", .label 0, .jumpUnless "b" 1, .copy "b" "false", .jump 0, .label 1,
      .functionEnd "f"] := by
  decide +kernel

/-- The body of `clearing` runs to its end when it starts with the condition set. -/
theorem runAll_clearing :
    ∃ p, (compile ⟨false, none⟩ clearing).program = some p ∧ ∃ f ∈ p.functions,
      ∃ ρ, Stmt.RunAll conjunctions f.body.statements (fun _ => true) .atEnd ρ ∧
        ∀ x ∈ f.variables, false = ρ x := by
  have hclean : (compile ⟨false, none⟩ clearing).diagnostics = [] := by decide +kernel
  have hprogram := (compile_of_clean hclean).1
  obtain ⟨f, hf, hname, hvariables, hsettled⟩ : ∃ f ∈ (parse (scan clearing).1).1.functions,
      f.name = "f" ∧ f.variables = ["b"] ∧ ∀ e ∈ f.body.exprs, e.Settled := by
    decide +kernel
  have hplain : ∀ x ∈ f.variables, ∀ n, x ≠ tempName n := by
    intro x hx n h
    rw [hvariables, List.mem_singleton] at hx
    have hlists := congrArg String.toList (hx.symm.trans h)
    rw [toList_tempName] at hlists
    exact absurd (List.cons.inj hlists).1 (by decide)
  refine ⟨_, hprogram, f, hf, ?_⟩
  refine (runAll_iff_halts_compiled conjunctions _ _ hclean _ hprogram f hf hplain hsettled
    (fun _ => true) (fun _ => true) (fun _ _ => rfl) .atEnd (fun _ => false)).2 ?_
  rw [hname, code_clearing, hvariables]
  refine ⟨0, Function.update (fun _ => true) "b" false, by decide,
    ⟨8, ⟨6, Function.update (fun _ => true) "b" false, []⟩, ?_, rfl, rfl⟩, by simp⟩
  exact .step rfl (.step rfl (.step rfl (.step rfl (.step rfl (.step rfl (.step rfl (.step rfl
    .refl)))))))

end Tricode
