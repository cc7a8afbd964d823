import Tricode.Instr
import Tricode.Proofs.Semantics

/-!
# Running three-address code

A machine that runs a listing: a state is the index of the next instruction, the values of variables
and temporaries, and the arguments passed and not yet taken by a call. An operand that is spelled
like a literal denotes that literal (`literalKind?`), and any other operand is a variable or a
temporary. A jump goes to the first place in the listing that has its label.

`Machine.HaltsIn` counts the steps to a return or to the end of a function. The machine is
deterministic, so a state that is reached on the way halts in what is left of the steps
(`Machine.HaltsIn.of_reaches`).
-/

namespace Tricode

variable {V : Type}

/-- The kind of literal that a text spells, if it spells one. -/
def literalKind? (text : String) : Option LiteralKind :=
  if text = "true" ∨ text = "false" then some .bool
  else match text.toList with
    | [] => none
    | c :: cs => if c.isDigit then some (if '.' ∈ cs then .float else .int) else none

theorem toList_toString (n : Nat) : (toString n).toList = Nat.toDigits 10 n := by
  simp [toString, Nat.repr_eq_ofList_toDigits]

/-- A `tempName` is the letter with the number of the temporary. -/
theorem toList_tempName (n : Nat) : (tempName n).toList = 't' :: Nat.toDigits 10 n := by
  simp [tempName, toString, Nat.repr_eq_ofList_toDigits]

/-- Different temporaries have different names, by `tempName`. -/
theorem tempName_injective : Function.Injective tempName := by
  intro n m h
  have hlists := congrArg String.toList h
  rw [toList_tempName, toList_tempName, List.cons.injEq] at hlists
  rw [← Nat.ofDigitChars_ten_toDigits (n := n), hlists.2, Nat.ofDigitChars_ten_toDigits]

/-- No `tempName` is spelled like a literal. -/
theorem literalKind?_tempName (n : Nat) : literalKind? (tempName n) = none := by
  have hlist := toList_tempName n
  -- no word for a truth value is a letter with digits behind it
  have hword : ¬ (tempName n = "true" ∨ tempName n = "false") := by
    rintro (h | h)
    · rw [h] at hlist
      have hdigits : Nat.toDigits 10 n = ['r', 'u', 'e'] := (List.cons.inj hlist).2.symm
      have hr : 'r' ∈ Nat.toDigits 10 n := by simp [hdigits]
      exact absurd (Nat.isDigit_of_mem_toDigits (by decide) (by decide) hr) (by decide)
    · rw [h] at hlist
      exact absurd (List.cons.inj hlist).1 (by decide)
  rw [literalKind?, if_neg hword, hlist]
  rfl

namespace Machine

/-- A state of the machine. -/
structure State (V : Type) where
  next : Nat
  env : Env V
  /-- The arguments that no call has taken yet, in the order in which they were passed. -/
  passed : List V

/-- The value of an operand. -/
def read (I : Interpretation V) (σ : Env V) (operand : String) : V :=
  match literalKind? operand with
  | some kind => I.literal kind operand
  | none => σ operand

/-- Where a label stands. -/
def target (code : List Instr) (n : Nat) : Option Nat :=
  code.findIdx? fun i => i = .label n

/-- Where a function begins. -/
def entry (code : List Instr) (name : String) : Option Nat :=
  code.findIdx? fun i => i = .functionStart name

/-- What an instruction leads to. -/
inductive Effect (V : Type) where
  | goto (s : State V)
  | halt (o : Ending V)

/-- The effect of an instruction that sets a variable and goes on. -/
def State.set (s : State V) (x : String) (v : V) : State V :=
  ⟨s.next + 1, Function.update s.env x v, s.passed⟩

/-- The state at another instruction. -/
def State.jump (s : State V) (next : Nat) : State V :=
  { s with next := next }

/-- The effect of an instruction. A call takes the arguments passed last. A jump to a label that is
not there has none, and neither has a line that is only text. -/
def effect (I : Interpretation V) (code : List Instr) (s : State V) : Instr → Option (Effect V)
  | .functionStart _ => some (.goto (s.jump (s.next + 1)))
  | .functionEnd _ => some (.halt .atEnd)
  | .copy dest value => some (.goto (s.set dest (read I s.env value)))
  | .declare x => some (.goto (s.set x I.undefined))
  | .jumpUnless cond n =>
    if I.truth (read I s.env cond) then some (.goto (s.jump (s.next + 1)))
    else (target code n).map fun next => .goto (s.jump next)
  | .jump n => (target code n).map fun next => .goto (s.jump next)
  | .label _ => some (.goto (s.jump (s.next + 1)))
  | .ret value => some (.halt (.returned (value.map (read I s.env))))
  | .param value => some (.goto ⟨s.next + 1, s.env, s.passed ++ [read I s.env value]⟩)
  | .binary dest left op right =>
    some (.goto (s.set (tempName dest) (I.binary op (read I s.env left) (read I s.env right))))
  | .unary dest op operand =>
    some (.goto (s.set (tempName dest) (I.unary op (read I s.env operand))))
  | .call dest callee count =>
    let kept := s.passed.length - count
    some (.goto
      { s.set (tempName dest) (I.call callee (s.passed.drop kept)) with
        passed := s.passed.take kept })
  | .verbatim _ => none

/-- One step of the machine. -/
def step (I : Interpretation V) (code : List Instr) (s : State V) : Option (Effect V) :=
  code[s.next]?.bind (effect I code s)

/-- The machine comes from the first state to the second in `n` steps. -/
inductive Reaches (I : Interpretation V) (code : List Instr) : Nat → State V → State V → Prop where
  | refl {s : State V} : Reaches I code 0 s s
  | step {n : Nat} {s s' s'' : State V} (first : step I code s = some (.goto s'))
    (rest : Reaches I code n s' s'') : Reaches I code (n + 1) s s''

/-- The machine halts from a state as said and with the given environment, after `n` steps and the
one that halts it. -/
def HaltsIn (I : Interpretation V) (code : List Instr) (n : Nat) (s : State V) (o : Ending V)
    (σ : Env V) : Prop :=
  ∃ s', Reaches I code n s s' ∧ step I code s' = some (.halt o) ∧ s'.env = σ

/-- The machine halts from a state as said and with the given environment. -/
def Halts (I : Interpretation V) (code : List Instr) (s : State V) (o : Ending V) (σ : Env V) :
    Prop :=
  ∃ n, HaltsIn I code n s o σ

variable {I : Interpretation V} {code : List Instr}

/-- A step takes the `effect` of the instruction at the place. -/
theorem step_of_getElem? {s : State V} {i : Instr} (h : code[s.next]? = some i) :
    step I code s = effect I code s i := by
  rw [step, h, Option.bind_some]

theorem Reaches.of_effect {s s' : State V} {i : Instr} (hi : code[s.next]? = some i)
    (h : effect I code s i = some (.goto s')) : Reaches I code 1 s s' :=
  .step ((step_of_getElem? hi).trans h) .refl

/-- Steps one behind the other, by `Reaches`. -/
theorem Reaches.trans {n m : Nat} {s s' s'' : State V} (h : Reaches I code n s s')
    (h' : Reaches I code m s' s'') : Reaches I code (n + m) s s'' := by
  induction h with
  | refl => rwa [Nat.zero_add]
  | step first _ ih =>
    rw [Nat.add_right_comm]
    exact .step first (ih h')

theorem HaltsIn.of_effect {s : State V} {i : Instr} {o : Ending V} (hi : code[s.next]? = some i)
    (h : effect I code s i = some (.halt o)) : HaltsIn I code 0 s o s.env :=
  ⟨s, .refl, (step_of_getElem? hi).trans h, rfl⟩

/-- The machine halts from a state that `Reaches` one from which it halts. -/
theorem HaltsIn.after_reaches {n m : Nat} {s s' : State V} {o : Ending V} {σ : Env V}
    (h : Reaches I code n s s') (h' : HaltsIn I code m s' o σ) : HaltsIn I code (n + m) s o σ := by
  obtain ⟨s'', hreach, hstep, henv⟩ := h'
  exact ⟨s'', h.trans hreach, hstep, henv⟩

/-- A state that is reached on the way `HaltsIn` what is left of the steps. -/
theorem HaltsIn.of_reaches {n m : Nat} {s s' : State V} {o : Ending V} {σ : Env V}
    (h : HaltsIn I code n s o σ) (hreach : Reaches I code m s s') :
    m ≤ n ∧ HaltsIn I code (n - m) s' o σ := by
  obtain ⟨s'', hto, hhalt⟩ := h
  induction hreach generalizing n with
  | refl => exact ⟨Nat.zero_le _, s'', hto, hhalt⟩
  | step first _ ih =>
    -- a state from which there is a step has not halted
    cases hto with
    | refl =>
      rw [first] at hhalt
      simp at hhalt
    | step first' rest =>
      rw [first] at first'
      cases first'
      obtain ⟨hle, hhalts⟩ := ih rest
      exact ⟨Nat.succ_le_succ hle, by rwa [Nat.succ_sub_succ]⟩

/-- How the machine halts, `HaltsIn`, is determined by where it starts. -/
theorem HaltsIn.unique {n m : Nat} {s : State V} {o o' : Ending V} {σ σ' : Env V}
    (h : HaltsIn I code n s o σ) (h' : HaltsIn I code m s o' σ') : o = o' ∧ σ = σ' := by
  obtain ⟨s', hreach, hstep, rfl⟩ := h'
  obtain ⟨-, s'', hreach', hstep', rfl⟩ := h.of_reaches hreach
  -- both runs pass the same states, so one ends where the other does
  generalize n - m = left at hreach'
  cases hreach' with
  | refl =>
    rw [hstep] at hstep'
    cases hstep'
    exact ⟨rfl, rfl⟩
  | step first _ =>
    rw [hstep] at first
    cases first

/-! ### Code inside a listing -/

/-- The instructions stand in the listing from `pc` on. -/
def At (code : List Instr) (pc : Nat) (is : List Instr) : Prop :=
  is <+: code.drop pc

/-- Pieces of `code` stand one behind the other at a place. -/
theorem at_append_iff {pc : Nat} {is js : List Instr} :
    At code pc (is ++ js) ↔ At code pc is ∧ At code (pc + is.length) js := by
  rw [At, At, At, ← List.drop_drop]
  constructor
  · rintro ⟨rest, hrest⟩
    rw [← hrest]
    exact ⟨⟨js ++ rest, by simp⟩, ⟨rest, by simp⟩⟩
  · rintro ⟨⟨rest, hrest⟩, hjs⟩
    rw [← hrest] at hjs ⊢
    obtain ⟨rest', rfl⟩ := by simpa using hjs
    exact ⟨rest', by simp⟩

/-- `At` a place stands the first instruction, and the others behind it. -/
theorem at_cons_iff {pc : Nat} {i : Instr} {is : List Instr} :
    At code pc (i :: is) ↔ code[pc]? = some i ∧ At code (pc + 1) is := by
  have hone : At code pc [i] ↔ code[pc]? = some i := by
    rw [At, ← List.head?_drop]
    cases code.drop pc <;> simp [eq_comm]
  rw [← List.singleton_append, at_append_iff, hone]
  rfl

end Machine

end Tricode
