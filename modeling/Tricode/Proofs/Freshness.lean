import Tricode.Proofs.Compilation
import Tricode.Proofs.Lowering.Layout
import Tricode.Proofs.Lowering.Writes

/-!
# When temporaries are fresh

Temporaries are numbered through the whole listing, whatever names the program uses, and a variable
may have the name of one. The temporaries of a function are fresh if none is a variable of the
function and no other instruction of the listing writes one. They are exactly if none of the numbers
that fall to the function makes the name of one of its variables, or of a variable that is declared
or assigned anywhere in the program (`temporariesFresh_iff`).
-/

namespace Tricode

/-- A temporary of a listing is written once, as `writes` counts, unless a variable that is written
has its name. -/
theorem writes_codeAll_eq_one_iff {fs : List Function} {n : Nat} (hn : n < Function.tempsAll fs)
    (l : Nat) :
    writes (Function.codeAll 0 l fs) (tempName n) = 1 ↔ ∀ g ∈ fs, tempName n ∉ g.written := by
  -- temporaries are numbered through, so each number is the result of one instruction
  have hresult :
      (((Function.codeAll 0 l fs).filterMap Instr.result?).map tempName).count (tempName n) =
        1 := by
    rw [Function.results_codeAll]
    refine List.count_eq_one_of_mem (List.Nodup.map tempName_injective List.nodup_range') ?_
    exact List.mem_map_of_mem (List.mem_range'_1.2 ⟨n.zero_le, by omega⟩)
  -- and an assignment writes into it exactly if a variable has its name
  have hassignee : ((Function.codeAll 0 l fs).filterMap Instr.assignee?).count (tempName n) = 0 ↔
      ∀ g ∈ fs, tempName n ∉ g.written := by
    rw [List.count_eq_zero, Function.mem_assignees_codeAll]
    simp
  rw [writes_eq, hresult, ← hassignee]
  omega

/-- Functions one behind the other use the temporaries of both, counted by `tempsAll`. -/
theorem Function.tempsAll_append (fs gs : List Function) :
    Function.tempsAll (fs ++ gs) = Function.tempsAll fs + Function.tempsAll gs := by
  induction fs with
  | nil => simp [Function.tempsAll]
  | cons f fs ih => simp [Function.tempsAll, ih, Nat.add_assoc]

/-- In a listing, the temporaries that the function computes are no variables of the function, and
no other instruction writes them. -/
def Function.TemporariesFresh (code : List Instr) (f : Function) : Prop :=
  ∀ i ∈ block code f.name, ∀ n ∈ i.result?,
    tempName n ∉ f.variables ∧ writes code (tempName n) = 1

/-- The temporaries of a function are `TemporariesFresh` exactly if none of the numbers that fall to
it makes the name of one of its variables, or of a variable that the program declares or assigns. -/
theorem temporariesFresh_iff (options : Options) (source : String)
    (hclean : (compile options source).diagnostics = []) (p : Program)
    (hp : (compile options source).program = some p) (before after : List Function) (f : Function)
    (hf : p.functions = before ++ f :: after) :
    f.TemporariesFresh (compile options source).code ↔
      ∀ n, Function.tempsAll before ≤ n → n < Function.tempsAll before + f.body.temps →
        tempName n ∉ f.variables ∧ ∀ g ∈ p.functions, tempName n ∉ g.written := by
  obtain ⟨hwell, hcode⟩ := wellFormed_of_clean hclean hp
  have hname : f.name ∉ before.map Function.name := by
    have hnodup := hwell.names_nodup
    rw [hf, List.map_append, List.map_cons] at hnodup
    exact fun h => (List.nodup_append.1 hnodup).2.2 _ h _ (by simp) rfl
  obtain ⟨l, hblock⟩ := block_codeAll after hname 0 0
  rw [← hf, ← hcode, Nat.zero_add] at hblock
  -- the temporaries in the block are those whose numbers fall to the function
  have hresults : (block (compile options source).code f.name).filterMap Instr.result? =
      List.range' (Function.tempsAll before) f.body.temps := by
    rw [hblock, List.filterMap_cons_none rfl, Block.results_code]
  have hmem : ∀ n, (∃ i ∈ block (compile options source).code f.name, n ∈ i.result?) ↔
      Function.tempsAll before ≤ n ∧ n < Function.tempsAll before + f.body.temps := by
    intro n
    rw [← List.mem_range'_1, ← hresults, List.mem_filterMap]
    rfl
  have hwrites : ∀ n, n < Function.tempsAll before + f.body.temps →
      (writes (compile options source).code (tempName n) = 1 ↔
        ∀ g ∈ p.functions, tempName n ∉ g.written) := by
    intro n hn
    rw [hcode]
    refine writes_codeAll_eq_one_iff ?_ 0
    rw [hf, Function.tempsAll_append, Function.tempsAll]
    omega
  constructor
  · intro h n hfirst hlast
    obtain ⟨i, hi, hn⟩ := (hmem n).2 ⟨hfirst, hlast⟩
    obtain ⟨hvariable, hone⟩ := h i hi n hn
    exact ⟨hvariable, (hwrites n hlast).1 hone⟩
  · intro h i hi n hn
    obtain ⟨hfirst, hlast⟩ := (hmem n).1 ⟨i, hi, hn⟩
    obtain ⟨hvariable, hwritten⟩ := h n hfirst hlast
    exact ⟨hvariable, (hwrites n hlast).2 hwritten⟩

/-- A function whose parameter has the name of a temporary. -/
def capturing : String := "int f(int t0) \x7b return t0 + 1; \x7d"

/-- In `capturing` the sum is computed in the parameter. -/
theorem not_temporariesFresh_capturing :
    ∃ p, (compile ⟨false, none⟩ capturing).program = some p ∧ ∃ f ∈ p.functions,
      ¬ f.TemporariesFresh (compile ⟨false, none⟩ capturing).code := by
  have hclean : (compile ⟨false, none⟩ capturing).diagnostics = [] := by decide +kernel
  have hprogram := (compile_of_clean hclean).1
  -- the only variable has the name of the only temporary
  have hfunctions : (parse (scan capturing).1).1.functions.map
      (fun f => (f.variables, f.body.temps)) = [(["t0"], 1)] := by
    decide +kernel
  obtain ⟨f, hsplit, hf⟩ := List.map_eq_singleton_iff.1 hfunctions
  obtain ⟨hvariables, htemps⟩ := Prod.mk.inj hf
  refine ⟨_, hprogram, f, by simp [hsplit], fun hfresh => ?_⟩
  have hzero := (temporariesFresh_iff _ _ hclean _ hprogram [] [] f hsplit).1 hfresh 0
    (Nat.le_refl 0) (by rw [htemps]; exact Nat.zero_lt_one)
  rw [hvariables] at hzero
  exact hzero.1 (by decide)

end Tricode
