import Tricode.Proofs.Lowering.Code
import Tricode.Proofs.Machine

/-!
# The code of an expression computes its value

`reaches_code`: from an environment that agrees with the source's on the variables `P`, the machine
runs through the code of an expression, agrees again behind it, and finds the value in the
expression's operand. Temporaries below the expression's own keep their values, which is what makes
the operand of an earlier sibling last.

A variable in which an earlier operand is held is not overwritten because the expression is settled.
-/

namespace Tricode

variable {V : Type}

/-- The environment of the machine has the values of the variables `P`. -/
def Agrees (P : List String) (ρ σ : Env V) : Prop :=
  ∀ x ∈ P, σ x = ρ x

/-- Neither literals nor temporaries are among the variables. -/
def PlainNames (P : List String) : Prop :=
  ∀ x ∈ P, literalKind? x = none ∧ ∀ n, x ≠ tempName n

/-- A literal is spelled like one of its kind, and a variable is one of `P`. -/
def Expr.Spelled (P : List String) : Expr → Prop
  | literal kind text _ => literalKind? text = some kind
  | ident x _ => x ∈ P
  | assign x _ _ => x ∈ P
  | _ => True

/-- The expression can be run with the variables `P`: it is spelled well, and its operands last. -/
def Expr.Runnable (P : List String) (e : Expr) : Prop :=
  ∀ part ∈ e.parts, part.Spelled P ∧ part.OperandsLast

/-- To write a variable on both sides keeps what `Agrees`. -/
theorem Agrees.update {P : List String} {ρ σ : Env V} (h : Agrees P ρ σ) (x : String) (v : V) :
    Agrees P (Function.update ρ x v) (Function.update σ x v) := by
  intro y hy
  by_cases hyx : y = x
  · rw [hyx, Function.update_self, Function.update_self]
  · rw [Function.update_of_ne hyx, Function.update_of_ne hyx]
    exact h y hy

/-- To write a temporary keeps what `Agrees`, since it changes no variable. -/
theorem Agrees.update_temp {P : List String} (hP : PlainNames P) {ρ σ : Env V} (h : Agrees P ρ σ)
    (n : Nat) (v : V) : Agrees P ρ (Function.update σ (tempName n) v) := by
  intro y hy
  rw [Function.update_of_ne ((hP y hy).2 n)]
  exact h y hy

namespace Machine

variable {I : Interpretation V} {code : List Instr} {P : List String}

/-- `read` takes a variable from the environment, since it is no literal. -/
theorem read_name (hP : PlainNames P) {x : String} (hx : x ∈ P) (σ : Env V) : read I σ x = σ x := by
  rw [read, (hP x hx).1]

/-- `read` takes a temporary from the environment, since it is no literal. -/
theorem read_temp (σ : Env V) (n : Nat) : read I σ (tempName n) = σ (tempName n) := by
  rw [read, literalKind?_tempName]

/-- Temporaries below `k` have kept their values. -/
def KeepsBelow (k : Nat) (σ σ' : Env V) : Prop :=
  ∀ n < k, σ' (tempName n) = σ (tempName n)

/-- What `KeepsBelow` one step after the other keeps in both. -/
theorem KeepsBelow.trans {k k' : Nat} {σ σ' σ'' : Env V} (h : KeepsBelow k σ σ')
    (h' : KeepsBelow k' σ' σ'') (hk : k ≤ k') : KeepsBelow k σ σ'' :=
  fun n hn => (h' n (Nat.lt_of_lt_of_le hn hk)).trans (h n hn)

/-- To write a later temporary `KeepsBelow` the earlier ones. -/
theorem KeepsBelow.update_temp {k n : Nat} {σ σ' : Env V} (h : KeepsBelow k σ σ') (hn : k ≤ n)
    (v : V) : KeepsBelow k σ (Function.update σ' (tempName n) v) := by
  intro m hm
  have hne : tempName m ≠ tempName n := fun heq => by
    have := tempName_injective heq
    omega
  rw [Function.update_of_ne hne]
  exact h m hm

/-- To write a variable `KeepsBelow` all temporaries. -/
theorem KeepsBelow.update_name (hP : PlainNames P) {x : String} (hx : x ∈ P) {k : Nat}
    {σ σ' : Env V} (h : KeepsBelow k σ σ') (v : V) :
    KeepsBelow k σ (Function.update σ' x v) := by
  intro m hm
  rw [Function.update_of_ne ((hP x hx).2 m).symm]
  exact h m hm

/-- `read` still finds the value of an operand after its temporaries and the variable that holds it
have been kept. -/
theorem read_operand_of_keeps (hP : PlainNames P) {e : Expr} (he : e.Spelled P) {k : Nat}
    {ρ ρ' σ σ' : Env V} (hag : Agrees P ρ σ) (hag' : Agrees P ρ' σ')
    (hkeep : KeepsBelow (k + e.temps) σ σ') (hholder : ∀ x ∈ e.holder?, ρ' x = ρ x) :
    read I σ' (e.operand k) = read I σ (e.operand k) := by
  have hname : ∀ x ∈ P, ρ' x = ρ x → read I σ' x = read I σ x := by
    intro x hx hkept
    rw [read_name hP hx, read_name hP hx, hag x hx, hag' x hx, hkept]
  -- temporaries of the expression lie below those that were written since
  have htemp : ∀ n < k + e.temps, read I σ' (tempName n) = read I σ (tempName n) := by
    intro n hn
    rw [read_temp, read_temp, hkeep n hn]
  cases e with
  | literal kind text pos =>
    have hkind : literalKind? text = some kind := he
    simp only [Expr.operand, read, hkind]
  | ident x pos => exact hname x he (hholder x rfl)
  | unary op e pos => exact htemp _ (by simp [Expr.temps])
  | binary op l r pos => exact htemp _ (by simp only [Expr.temps]; omega)
  | call f args pos => exact htemp _ (by simp [Expr.temps])
  | assign x e pos => exact hname x he (hholder x rfl)

/-- Operands are passed one behind the other. -/
theorem reaches_params (σ : Env V) (operands : List String) (pc : Nat) (passed : List V)
    (hat : At code pc (operands.map .param)) :
    ∃ n, Reaches I code n ⟨pc, σ, passed⟩
      ⟨pc + operands.length, σ, passed ++ operands.map (read I σ)⟩ := by
  induction operands generalizing pc passed with
  | nil => exact ⟨0, by simpa using .refl⟩
  | cons a as ih =>
    obtain ⟨hparam, hat⟩ := at_cons_iff.1 hat
    obtain ⟨n, hreach⟩ := ih (pc + 1) (passed ++ [read I σ a]) hat
    refine ⟨1 + n, (Reaches.of_effect hparam rfl).trans ?_⟩
    simpa [Nat.add_assoc, Nat.add_comm 1] using hreach

mutual

/-- The machine runs through the `code` of an expression and finds its value in its operand. -/
theorem reaches_code (hP : PlainNames P) :
    ∀ (e : Expr) (k pc : Nat) (ρ σ : Env V) (passed : List V),
    e.Runnable P → At code pc (e.code k) → Agrees P ρ σ →
    ∃ n σ', Reaches I code n ⟨pc, σ, passed⟩ ⟨pc + (e.code k).length, σ', passed⟩ ∧
      Agrees P (e.eval I ρ).2 σ' ∧ read I σ' (e.operand k) = (e.eval I ρ).1 ∧ KeepsBelow k σ σ'
  | .literal kind text pos, k, pc, ρ, σ, passed, he, _, hag => by
    have hkind : literalKind? text = some kind := (he _ (Expr.self_mem_parts _)).1
    exact ⟨0, σ, .refl, hag, by simp only [read, Expr.operand, hkind, Expr.eval], fun _ _ => rfl⟩
  | .ident x pos, k, pc, ρ, σ, passed, he, _, hag => by
    have hx : x ∈ P := (he _ (Expr.self_mem_parts _)).1
    exact ⟨0, σ, .refl, hag, (read_name hP hx σ).trans (hag x hx), fun _ _ => rfl⟩
  | .unary op e pos, k, pc, ρ, σ, passed, he, hat, hag => by
    obtain ⟨hat, hop⟩ := at_append_iff.1 hat
    obtain ⟨n, σ₁, hreach, hag₁, hval, hkeep⟩ := reaches_code hP e k pc ρ σ passed
      (fun part hpart => he part (by simp [Expr.parts, hpart])) hat hag
    refine ⟨n + 1, Function.update σ₁ (tempName (k + e.temps)) (I.unary op (e.eval I ρ).1), ?_,
      hag₁.update_temp hP _ _, ?_, hkeep.update_temp (Nat.le_add_right _ _) _⟩
    · rw [Expr.code, List.length_append, ← Nat.add_assoc, ← hval]
      exact hreach.trans (.of_effect (at_cons_iff.1 hop).1 rfl)
    · exact (read_temp _ _).trans (Function.update_self _ _ _)
  | .binary op l r pos, k, pc, ρ, σ, passed, he, hat, hag => by
    obtain ⟨hatl, hat⟩ := at_append_iff.1 hat
    obtain ⟨hatr, hop⟩ := at_append_iff.1 hat
    have hl : l.Runnable P := fun part hpart => he part (by simp [Expr.parts, hpart])
    obtain ⟨n, σ₁, hreach₁, hag₁, hval₁, hkeep₁⟩ := reaches_code hP l k pc ρ σ passed hl hatl hag
    obtain ⟨m, σ₂, hreach₂, hag₂, hval₂, hkeep₂⟩ := reaches_code hP r (k + l.temps)
      (pc + (l.code k).length) (l.eval I ρ).2 σ₁ passed
      (fun part hpart => he part (by simp [Expr.parts, hpart])) hatr hag₁
    -- the left operand is not overtaken by the right one
    have hlast : l.Outlasts r := (he _ (Expr.self_mem_parts _)).2
    have hleft : read I σ₂ (l.operand k) = (l.eval I ρ).1 := by
      rw [← hval₁]
      refine read_operand_of_keeps hP (hl _ l.self_mem_parts).1 hag₁ hag₂ hkeep₂ fun x hx => ?_
      exact r.eval_of_not_mem_assigned I _ (hlast.target?_ne hx)
    refine ⟨n + m + 1, Function.update σ₂ (tempName (k + l.temps + r.temps))
      (I.binary op (l.eval I ρ).1 (r.eval I (l.eval I ρ).2).1), ?_, hag₂.update_temp hP _ _, ?_,
      (hkeep₁.trans hkeep₂ (Nat.le_add_right _ _)).update_temp (by omega) _⟩
    · rw [Expr.code, List.length_append, List.length_append, ← Nat.add_assoc, ← Nat.add_assoc,
        ← hleft, ← hval₂]
      exact (hreach₁.trans hreach₂).trans (.of_effect (at_cons_iff.1 hop).1 rfl)
    · exact (read_temp _ _).trans (Function.update_self _ _ _)
  | .call f args pos, k, pc, ρ, σ, passed, he, hat, hag => by
    obtain ⟨hat, hparams⟩ := at_append_iff.1 hat
    obtain ⟨hparams, hcall⟩ := at_append_iff.1 hparams
    have hargs : ∀ e ∈ args, e.Runnable P := fun e he' part hpart =>
      he part (by simpa [Expr.parts, Expr.mem_partsAll] using .inr ⟨e, he', hpart⟩)
    obtain ⟨n, σ₁, hreach₁, hag₁, hvals, hkeep⟩ := reaches_codeAll hP args k pc ρ σ passed hargs
      (he _ (Expr.self_mem_parts _)).2 hat hag
    -- the arguments are passed after all of them have been evaluated
    obtain ⟨m, hreach₂⟩ := reaches_params (I := I) σ₁ (Expr.operands k args) _ passed hparams
    refine ⟨n + m + 1, Function.update σ₁ (tempName (k + Expr.tempsAll args))
      (I.call f.callee (Expr.evalAll I args ρ).1), ?_, hag₁.update_temp hP _ _, ?_,
      hkeep.update_temp (Nat.le_add_right _ _) _⟩
    · rw [Expr.code, List.length_append, List.length_append, List.length_map, ← Nat.add_assoc,
        ← Nat.add_assoc, ← hvals]
      rw [List.length_map] at hcall
      refine (hreach₁.trans hreach₂).trans (.of_effect (at_cons_iff.1 hcall).1 ?_)
      simp [effect, State.set]
    · exact (read_temp _ _).trans (Function.update_self _ _ _)
  | .assign x e pos, k, pc, ρ, σ, passed, he, hat, hag => by
    obtain ⟨hat, hcopy⟩ := at_append_iff.1 hat
    have hx : x ∈ P := (he _ (Expr.self_mem_parts _)).1
    obtain ⟨n, σ₁, hreach, hag₁, hval, hkeep⟩ := reaches_code hP e k pc ρ σ passed
      (fun part hpart => he part (by simp [Expr.parts, hpart])) hat hag
    refine ⟨n + 1, Function.update σ₁ x (e.eval I ρ).1, ?_, hag₁.update _ _, ?_,
      hkeep.update_name hP hx _⟩
    · rw [Expr.code, List.length_append, ← Nat.add_assoc, ← hval]
      exact hreach.trans (.of_effect (at_cons_iff.1 hcopy).1 rfl)
    · exact (read_name hP hx _).trans (Function.update_self _ _ _)

/-- The machine runs through the `code` of arguments, and finds their values in their operands,
since each `Outlasts` the later ones. -/
theorem reaches_codeAll (hP : PlainNames P) : ∀ (es : List Expr) (k pc : Nat) (ρ σ : Env V)
    (passed : List V), (∀ e ∈ es, e.Runnable P) → es.Pairwise Expr.Outlasts →
    At code pc (Expr.codeAll k es) → Agrees P ρ σ →
    ∃ n σ', Reaches I code n ⟨pc, σ, passed⟩ ⟨pc + (Expr.codeAll k es).length, σ', passed⟩ ∧
      Agrees P (Expr.evalAll I es ρ).2 σ' ∧
      (Expr.operands k es).map (read I σ') = (Expr.evalAll I es ρ).1 ∧ KeepsBelow k σ σ'
  | [], k, pc, ρ, σ, passed, _, _, _, hag => ⟨0, σ, .refl, hag, rfl, fun _ _ => rfl⟩
  | e :: es, k, pc, ρ, σ, passed, hes, hlast, hat, hag => by
    obtain ⟨hat₁, hat₂⟩ := at_append_iff.1 hat
    obtain ⟨hlast₁, hlast₂⟩ := List.pairwise_cons.1 hlast
    have he : e.Runnable P := hes e (by simp)
    obtain ⟨n, σ₁, hreach₁, hag₁, hval₁, hkeep₁⟩ := reaches_code hP e k pc ρ σ passed he hat₁ hag
    obtain ⟨m, σ₂, hreach₂, hag₂, hval₂, hkeep₂⟩ := reaches_codeAll hP es (k + e.temps)
      (pc + (e.code k).length) (e.eval I ρ).2 σ₁ passed
        (fun e' he' => hes e' (by simp [he'])) hlast₂
      hat₂ hag₁
    -- the first argument is not overtaken by any of the others
    have hfirst : read I σ₂ (e.operand k) = (e.eval I ρ).1 := by
      rw [← hval₁]
      refine read_operand_of_keeps hP (he _ e.self_mem_parts).1 hag₁ hag₂ hkeep₂ fun x hx => ?_
      refine Expr.evalAll_of_not_mem_assigned I es _ fun part hpart => ?_
      obtain ⟨e', he', hpart⟩ := Expr.mem_partsAll.1 hpart
      exact (hlast₁ e' he').target?_ne hx part hpart
    refine ⟨n + m, σ₂, ?_, hag₂, ?_, hkeep₁.trans hkeep₂ (Nat.le_add_right _ _)⟩
    · rw [Expr.codeAll, List.length_append, ← Nat.add_assoc]
      exact hreach₁.trans hreach₂
    · rw [Expr.operands, List.map_cons, hfirst, hval₂]
      rfl

end

end Machine

end Tricode
