import Tricode.Proofs.Compilation
import Tricode.Proofs.Lowering.Sites
import Tricode.Proofs.Lowering.Writes

/-!
# When operands keep their values

An operand that is a variable, or an assignment to one, is passed on by the name of the variable and
not as a copy. The value is lost if the code of a later operand writes the name before the operation
reads it. This happens exactly where a later operand assigns that variable or computes a temporary
of its name, and where the operand is held by a temporary, exactly where a later one assigns a
variable of that name (`pairwise_sparedBy_iff_safeFrom`).
-/

namespace Tricode

namespace Site

/-- The code of the second expression does not write what holds the value of the first. -/
def SparedBy (a b : Site) : Prop :=
  ∀ i ∈ b.code, i.written? ≠ some a.operand

/-- Evaluating the second expression does not touch what the value of the first is found in: a
variable must neither be assigned nor have the name of a temporary that is computed, and a temporary
must not have the name of a variable that is assigned. -/
def SafeFrom (a b : Site) : Prop :=
  match a.expr with
  | .literal .. => True
  | .ident x _ | .assign x _ _ =>
    x ∉ b.expr.assigned ∧ ∀ n ∈ List.range' b.first b.expr.temps, x ≠ tempName n
  | .unary .. | .binary .. | .call .. => a.operand ∉ b.expr.assigned

instance : (a b : Site) → Decidable (a.SafeFrom b)
  | ⟨_, .literal ..⟩, _ => .isTrue trivial
  | ⟨_, .ident x _⟩, b | ⟨_, .assign x _ _⟩, b => inferInstanceAs
    (Decidable (x ∉ b.expr.assigned ∧ ∀ n ∈ List.range' b.first b.expr.temps, x ≠ tempName n))
  | ⟨k, .unary op e pos⟩, b =>
    inferInstanceAs (Decidable ((Expr.unary op e pos).operand k ∉ b.expr.assigned))
  | ⟨k, .binary op l r pos⟩, b =>
    inferInstanceAs (Decidable ((Expr.binary op l r pos).operand k ∉ b.expr.assigned))
  | ⟨k, .call f args pos⟩, b =>
    inferInstanceAs (Decidable ((Expr.call f args pos).operand k ∉ b.expr.assigned))

/-- An operand is `SparedBy` a later one that neither assigns what holds it nor computes a temporary
with its name. -/
theorem sparedBy_iff (a b : Site) :
    a.SparedBy b ↔ a.operand ∉ b.expr.assigned ∧
      ∀ n ∈ List.range' b.first b.expr.temps, a.operand ≠ tempName n := by
  have hwritten := b.expr.exists_written_code_iff b.first a.operand
  have hnot : a.SparedBy b ↔ ¬ ∃ i ∈ b.expr.code b.first, i.written? = some a.operand := by
    simp [SparedBy, code]
  -- what the code writes is known: temporaries and assigned variables
  rw [hnot, hwritten]
  simp only [List.mem_range'_1, not_or, not_exists, not_and]
  constructor
  · rintro ⟨htemps, hassigned⟩
    exact ⟨hassigned, fun n hn h => htemps n hn.1 hn.2 h.symm⟩
  · rintro ⟨hassigned, htemps⟩
    exact ⟨fun n hfirst hlast h => htemps n ⟨hfirst, hlast⟩ h.symm, hassigned⟩

/-- The temporary of an operation is none of those that are computed later. -/
theorem tempName_ne_of_lt {b : Site} {m : Nat} (hm : m < b.first) :
    ∀ n ∈ List.range' b.first b.expr.temps, tempName m ≠ tempName n := by
  intro n hn h
  have hmn := tempName_injective h
  have hfirst := (List.mem_range'_1.1 hn).1
  omega

/-- Whether an operand is `SparedBy` a later one can be read off the source, if literals are spelled
like literals and assigned variables are not. -/
theorem sparedBy_iff_safeFrom {a b : Site} (hliteral : a.expr.LiteralSpelled)
    (hassigned : ∀ x ∈ b.expr.assigned, literalKind? x = none)
    (horder : a.first + a.expr.temps ≤ b.first) : a.SparedBy b ↔ a.SafeFrom b := by
  rw [sparedBy_iff]
  obtain ⟨k, e⟩ := a
  cases e with
  | literal kind text pos =>
    -- a name that is written is no literal
    have hkind : literalKind? text = some kind := hliteral
    refine iff_of_true ⟨fun h => ?_, fun n _ h => ?_⟩ trivial
    · exact absurd (hassigned text h) (by simp [hkind])
    · have hname : text = tempName n := h
      exact absurd (literalKind?_tempName n) (by simp [← hname, hkind])
  -- a variable is its own operand, and nothing is known about its name
  | ident x pos => exact Iff.rfl
  | assign x e pos => exact Iff.rfl
  | unary op e pos =>
    rw [Expr.temps] at horder
    exact and_iff_left (tempName_ne_of_lt (by omega))
  | binary op l r pos =>
    rw [Expr.temps] at horder
    exact and_iff_left (tempName_ne_of_lt (by omega))
  | call f args pos =>
    rw [Expr.temps] at horder
    exact and_iff_left (tempName_ne_of_lt (by omega))

end Site

/-- In a `WellFormed` program no variable that is assigned is spelled like a literal. -/
theorem Program.WellFormed.literalKind?_of_mem_assigned {p : Program} (h : p.WellFormed)
    {f : Function} (hf : f ∈ p.functions) {e part : Expr} (he : e ∈ f.body.exprs)
    (hpart : part ∈ e.parts) {x : String} (hx : x ∈ part.assigned) : literalKind? x = none := by
  obtain ⟨inner, hinner, htarget⟩ := List.mem_filterMap.1 hx
  have hresolved := (h.resolved f hf e he inner (e.mem_parts_trans hpart hinner)).2
  refine h.plain f hf x (hresolved x ?_)
  cases inner <;> simp_all [Expr.target?, Expr.holder?]

/-- The operands of every expression are lowered to their `code` and held by their operands. In the
listing their code stands before the instructions that read them. All of them are `SparedBy` the
later ones, whose code does not write what holds them, exactly if all are `SafeFrom` the later ones
in the source. -/
theorem pairwise_sparedBy_iff_safeFrom (options : Options) (source : String)
    (hclean : (compile options source).diagnostics = []) (p : Program)
    (hp : (compile options source).program = some p) (s : Site) (hs : s ∈ p.sites) :
    (∀ a ∈ s.operands, ∀ l, Lowering.lowerExpr a.expr.toNode ⟨a.first, l⟩ =
      ⟨.ok a.operand, a.code, ⟨a.first + a.expr.temps, l⟩⟩) ∧
    s.operands.flatMap Site.code ++ s.operation <:+: (compile options source).code ∧
    (s.operands.Pairwise Site.SparedBy ↔ s.operands.Pairwise Site.SafeFrom) := by
  obtain ⟨hwell, hcode⟩ := wellFormed_of_clean hclean hp
  obtain ⟨f, hf, e, he, hpart⟩ := Program.exists_of_mem_sites hs
  have hoperand : ∀ a ∈ s.operands, a.expr ∈ e.parts := by
    intro a ha
    have hchild : a.expr ∈ s.expr.children :=
      Site.map_expr_sequence s.first s.expr.children ▸ List.mem_map_of_mem ha
    exact e.mem_parts_trans hpart (Expr.mem_parts_of_mem_children hchild)
  -- for two operands in their order the source decides
  have hiff : ∀ a ∈ s.operands, ∀ b ∈ s.operands, a.first + a.expr.temps ≤ b.first →
      (a.SparedBy b ↔ a.SafeFrom b) := by
    intro a ha b hb horder
    exact Site.sparedBy_iff_safeFrom (hwell.literals f hf e he a.expr (hoperand a ha))
      (fun x hx => hwell.literalKind?_of_mem_assigned hf he (hoperand b hb) hx) horder
  have horder := (Site.pairwise_sequence s.first s.expr.children).1
  refine ⟨fun a ha l => ?_, ?_, fun h => ?_, fun h => ?_⟩
  · have hcalls : a.expr.CallsNames := fun part hinner =>
      hwell.callsNames f hf e he part (e.mem_parts_trans (hoperand a ha) hinner)
    exact Lowering.lowerExpr_toNode a.expr ⟨a.first, l⟩ hcalls
  · rw [← s.code_eq, hcode]
    exact Function.code_infix_of_mem_sites p.functions 0 0 s hs
  · exact (horder.and h).imp_of_mem fun ha hb hab => (hiff _ ha _ hb hab.1).1 hab.2
  · exact (horder.and h).imp_of_mem fun ha hb hab => (hiff _ ha _ hb hab.1).2 hab.2

/-- A function in which an operand is overtaken. -/
def overtaking : String := "int f(int x) \x7b return x + (x = 1); \x7d"

/-- The sum in `overtaking` adds the new value of the variable twice. -/
theorem not_sparedBy_overtaking :
    ∃ p, (compile ⟨false, none⟩ overtaking).program = some p ∧ ∃ s ∈ p.sites,
      ¬ s.operands.Pairwise Site.SparedBy := by
  have hclean : (compile ⟨false, none⟩ overtaking).diagnostics = [] := by decide +kernel
  have hprogram := (compile_of_clean hclean).1
  obtain ⟨s, hs, hunsafe⟩ : ∃ s ∈ (parse (scan overtaking).1).1.sites,
      ¬ s.operands.Pairwise Site.SafeFrom := by
    decide +kernel
  refine ⟨_, hprogram, s, hs, fun h => hunsafe ?_⟩
  exact (pairwise_sparedBy_iff_safeFrom _ _ hclean _ hprogram s hs).2.2.1 h

end Tricode
