import Tricode.Proofs.Simulation.Expr

/-!
# The code of statements runs like the statements

`passes_code`: where a run of the source ends, the machine ends in the same way, by induction on the
run. `exists_run_of_halts`: where the machine halts, the source has a run, by induction on the
number of steps: a further round of a loop has fewer steps left, and any other statement is smaller.
Since the machine is deterministic, the two together say that both end or neither does.

Jumps need every label to lead to where it stands (`Resolves`).
-/

namespace Tricode

variable {V : Type}

namespace Machine

/-- Every label is found where it stands. -/
def Resolves (code : List Instr) : Prop :=
  ∀ pc n, code[pc]? = some (.label n) → target code n = some pc

variable {I : Interpretation V} {code : List Instr} {P : List String}

/-- The machine goes the way that a run of the source goes: on to `stop`, or to a return. -/
def Passes (I : Interpretation V) (code : List Instr) (P : List String) (s : State V) (stop : Nat) :
    Ending V → Env V → Prop
  | .atEnd, ρ => ∃ n σ, Reaches I code n s ⟨stop, σ, s.passed⟩ ∧ Agrees P ρ σ
  | .returned value, ρ => ∃ n σ, HaltsIn I code n s (.returned value) σ ∧ Agrees P ρ σ

/-- Steps in front of `code` that the machine passes. -/
theorem Passes.after_reaches {n : Nat} {s s' : State V} {stop : Nat} {o : Ending V} {ρ : Env V}
    (hreach : Reaches I code n s s') (hpassed : s'.passed = s.passed)
    (h : Passes I code P s' stop o ρ) : Passes I code P s stop o ρ := by
  cases o with
  | atEnd =>
    obtain ⟨m, σ, hstop, hag⟩ := h
    rw [hpassed] at hstop
    exact ⟨n + m, σ, hreach.trans hstop, hag⟩
  | returned value =>
    obtain ⟨m, σ, hhalt, hag⟩ := h
    exact ⟨n + m, σ, hhalt.after_reaches hreach, hag⟩

/-- Where `code` leads on from `stop` without doing anything, it may be counted in. -/
theorem Passes.extend {s : State V} {stop stop' : Nat} {o : Ending V} {ρ : Env V}
    (h : Passes I code P s stop o ρ)
    (hext : ∀ σ, ∃ n, Reaches I code n ⟨stop, σ, s.passed⟩ ⟨stop', σ, s.passed⟩) :
    Passes I code P s stop' o ρ := by
  cases o with
  | atEnd =>
    obtain ⟨m, σ, hstop, hag⟩ := h
    obtain ⟨n, hreach⟩ := hext σ
    exact ⟨m + n, σ, hstop.trans hreach, hag⟩
  | returned value => exact h

theorem Passes.of_eq {s : State V} {stop stop' : Nat} {o : Ending V} {ρ : Env V}
    (h : Passes I code P s stop o ρ) (hstop : stop' = stop) : Passes I code P s stop' o ρ :=
  hstop ▸ h

theorem reaches_label {pc n : Nat} (h : code[pc]? = some (.label n)) (σ : Env V) (passed : List V) :
    Reaches I code 1 ⟨pc, σ, passed⟩ ⟨pc + 1, σ, passed⟩ :=
  .of_effect h rfl

/-- A jump `Reaches` the place of its label in one step. -/
theorem reaches_jump (hcode : Resolves code) {pc pc' n : Nat} (h : code[pc]? = some (.jump n))
    (htarget : code[pc']? = some (.label n)) (σ : Env V) (passed : List V) :
    Reaches I code 1 ⟨pc, σ, passed⟩ ⟨pc', σ, passed⟩ := by
  refine .of_effect h ?_
  rw [effect, hcode pc' n htarget]
  rfl

/-- Where the condition holds, the machine goes straight on. -/
theorem reaches_jumpUnless_true {pc n : Nat} {cond : String}
    (h : code[pc]? = some (.jumpUnless cond n)) {σ : Env V} (hc : I.truth (read I σ cond) = true)
    (passed : List V) : Reaches I code 1 ⟨pc, σ, passed⟩ ⟨pc + 1, σ, passed⟩ := by
  refine .of_effect h ?_
  rw [effect, if_pos hc]
  rfl

/-- Where the condition fails, the machine goes to the place of the label. -/
theorem reaches_jumpUnless_false (hcode : Resolves code) {pc pc' n : Nat} {cond : String}
    (h : code[pc]? = some (.jumpUnless cond n)) (htarget : code[pc']? = some (.label n)) {σ : Env V}
    (hc : I.truth (read I σ cond) = false) (passed : List V) :
    Reaches I code 1 ⟨pc, σ, passed⟩ ⟨pc', σ, passed⟩ := by
  refine .of_effect h ?_
  rw [effect, if_neg (by simp [hc]), hcode pc' n htarget]
  rfl

/-! ### Code in its place -/

/-- The code of a condition stands at `pc`, with the jump to label `l` behind it. -/
structure ConditionAt (code : List Instr) (P : List String) (k l pc : Nat) (c : Expr) : Prop where
  runnable : c.Runnable P
  at_code : At code pc (c.code k)
  jump : code[pc + (c.code k).length]? = some (.jumpUnless (c.operand k) l)

/-- The code of a statement stands at `pc`, and the statement uses no variables but `P`. -/
structure StmtAt (code : List Instr) (P : List String) (k l pc : Nat) (s : Stmt) : Prop where
  runnable : ∀ e ∈ s.exprs, e.Runnable P
  declared : ∀ x ∈ s.declared, x ∈ P
  at_code : At code pc (s.code k l)

/-- The code of statements stands at `pc`, and they use no variables but `P`. -/
structure StmtsAt (code : List Instr) (P : List String) (k l pc : Nat) (ss : List Stmt) : Prop where
  runnable : ∀ e ∈ Stmt.exprsAll ss, e.Runnable P
  declared : ∀ x ∈ Stmt.declaredAll ss, x ∈ P
  at_code : At code pc (Stmt.codeAll k l ss)

/-- The `code` of the first statement stands in place, and that of the others behind it. -/
theorem StmtsAt.cons {k l pc : Nat} {s : Stmt} {ss : List Stmt}
    (h : StmtsAt code P k l pc (s :: ss)) :
    StmtAt code P k l pc s ∧
      StmtsAt code P (k + s.temps) (l + s.labels) (pc + (s.code k l).length) ss := by
  obtain ⟨hexprs, hdeclared, hat⟩ := h
  simp only [Stmt.exprsAll, List.mem_append] at hexprs
  simp only [Stmt.declaredAll, List.mem_append] at hdeclared
  obtain ⟨hfirst, hrest⟩ := at_append_iff.1 hat
  exact ⟨⟨fun e he => hexprs e (.inl he), fun x hx => hdeclared x (.inl hx), hfirst⟩,
    ⟨fun e he => hexprs e (.inr he), fun x hx => hdeclared x (.inr hx), hrest⟩⟩

/-- The `code` of a conditional: condition, body, label. -/
theorem StmtAt.ifThen {k l pc : Nat} {c : Expr} {b : Block} {pos : Pos}
    (h : StmtAt code P k l pc (.ifThen c b pos)) :
    ConditionAt code P k l pc c ∧
      StmtsAt code P (k + c.temps) (l + 1) (pc + (c.code k).length + 1) b.statements ∧
      code[pc + (c.code k).length + 1 + (b.code (k + c.temps) (l + 1)).length]? =
        some (.label l) := by
  obtain ⟨hexprs, hdeclared, hat⟩ := h
  simp only [Stmt.exprs, List.mem_cons, forall_eq_or_imp, Block.exprs_eq] at hexprs
  simp only [Stmt.declared, Block.declared_eq] at hdeclared
  simp only [Stmt.code, at_append_iff, at_cons_iff] at hat
  obtain ⟨hcond, hjump, hbody, hlabel, -⟩ := hat
  rw [Block.code_eq] at hbody
  exact ⟨⟨hexprs.1, hcond, hjump⟩, ⟨hexprs.2, hdeclared, hbody⟩, hlabel⟩

/-- The `code` of a conditional with an alternative: condition, body, jump, label, alternative,
label. -/
theorem StmtAt.ifElse {k l pc : Nat} {c : Expr} {b a : Block} {pos : Pos}
    (h : StmtAt code P k l pc (.ifElse c b a pos)) :
    ∃ done other, ConditionAt code P k l pc c ∧
      StmtsAt code P (k + c.temps) (l + 2) (pc + (c.code k).length + 1) b.statements ∧
      done = pc + (c.code k).length + 1 + (b.code (k + c.temps) (l + 2)).length ∧
      code[done]? = some (.jump (l + 1)) ∧ code[done + 1]? = some (.label l) ∧
      StmtsAt code P (k + c.temps + b.temps) (l + 2 + b.labels) (done + 1 + 1) a.statements ∧
      other = done + 1 + 1 + (a.code (k + c.temps + b.temps) (l + 2 + b.labels)).length ∧
      code[other]? = some (.label (l + 1)) := by
  obtain ⟨hexprs, hdeclared, hat⟩ := h
  simp only [Stmt.exprs, List.mem_cons, forall_eq_or_imp, List.mem_append, Block.exprs_eq] at hexprs
  simp only [Stmt.declared, List.mem_append, Block.declared_eq] at hdeclared
  simp only [Stmt.code, at_append_iff, at_cons_iff] at hat
  obtain ⟨hcond, hjump, hbody, hskip, hlabel, halternative, hdone, -⟩ := hat
  rw [Block.code_eq _ _ b] at hbody
  rw [Block.code_eq _ _ a] at halternative
  exact ⟨_, _, ⟨hexprs.1, hcond, hjump⟩,
    ⟨fun e he => hexprs.2 e (.inl he), fun x hx => hdeclared x (.inl hx), hbody⟩, rfl, hskip,
      hlabel,
    ⟨fun e he => hexprs.2 e (.inr he), fun x hx => hdeclared x (.inr hx), halternative⟩, rfl, hdone⟩

/-- The `code` of a loop: label, condition, body, jump back, label. -/
theorem StmtAt.loop {k l pc : Nat} {c : Expr} {b : Block} {pos : Pos}
    (h : StmtAt code P k l pc (.loop c b pos)) :
    ∃ back, code[pc]? = some (.label l) ∧ ConditionAt code P k (l + 1) (pc + 1) c ∧
      StmtsAt code P (k + c.temps) (l + 2) (pc + 1 + (c.code k).length + 1) b.statements ∧
      back = pc + 1 + (c.code k).length + 1 + (b.code (k + c.temps) (l + 2)).length ∧
      code[back]? = some (.jump l) ∧ code[back + 1]? = some (.label (l + 1)) := by
  obtain ⟨hexprs, hdeclared, hat⟩ := h
  simp only [Stmt.exprs, List.mem_cons, forall_eq_or_imp, Block.exprs_eq] at hexprs
  simp only [Stmt.declared, Block.declared_eq] at hdeclared
  simp only [Stmt.code, at_append_iff, at_cons_iff] at hat
  obtain ⟨hagain, hcond, hjump, hbody, hback, hdone, -⟩ := hat
  rw [Block.code_eq] at hbody
  exact ⟨_, hagain, ⟨hexprs.1, hcond, hjump⟩, ⟨hexprs.2, hdeclared, hbody⟩, rfl, hback, hdone⟩

/-- A condition that holds leads to the `code` behind its jump. -/
theorem reaches_condition_true (hP : PlainNames P) {c : Expr} {k l pc : Nat}
    (hc : ConditionAt code P k l pc c) {ρ σ : Env V} (hag : Agrees P ρ σ)
    (htruth : I.truth (c.eval I ρ).1 = true) (passed : List V) :
    ∃ n σ', Reaches I code n ⟨pc, σ, passed⟩ ⟨pc + (c.code k).length + 1, σ', passed⟩ ∧
      Agrees P (c.eval I ρ).2 σ' := by
  obtain ⟨n, σ', hreach, hag', hval, -⟩ :=
    reaches_code hP c k pc ρ σ passed hc.runnable hc.at_code hag
  rw [← hval] at htruth
  exact ⟨n + 1, σ', hreach.trans (reaches_jumpUnless_true hc.jump htruth passed), hag'⟩

/-- A condition that fails, with its code in `ConditionAt`, leads to the label of its jump. -/
theorem reaches_condition_false (hP : PlainNames P) (hcode : Resolves code) {c : Expr}
    {k l pc pc' : Nat} (hc : ConditionAt code P k l pc c) (hlabel : code[pc']? = some (.label l))
    {ρ σ : Env V} (hag : Agrees P ρ σ) (htruth : I.truth (c.eval I ρ).1 = false)
    (passed : List V) :
    ∃ n σ', Reaches I code n ⟨pc, σ, passed⟩ ⟨pc', σ', passed⟩ ∧ Agrees P (c.eval I ρ).2 σ' := by
  obtain ⟨n, σ', hreach, hag', hval, -⟩ :=
    reaches_code hP c k pc ρ σ passed hc.runnable hc.at_code hag
  rw [← hval] at htruth
  exact ⟨n + 1, σ', hreach.trans (reaches_jumpUnless_false hcode hc.jump hlabel htruth passed),
    hag'⟩

/-! ### The machine follows the source -/

mutual

/-- The machine ends the `code` of a statement as a run of the statement ends. -/
theorem passes_code (hP : PlainNames P) (hcode : Resolves code) {s : Stmt} {ρ ρ' : Env V}
    {o : Ending V} (h : s.Runs I ρ o ρ') (k l pc : Nat) (σ : Env V) (passed : List V)
    (hs : StmtAt code P k l pc s) (hag : Agrees P ρ σ) :
    Passes I code P ⟨pc, σ, passed⟩ (pc + (s.code k l).length) o ρ' := by
  match h with
  | .expr (e := e) =>
    obtain ⟨n, σ', hreach, hag', -⟩ := reaches_code (I := I) hP e k pc ρ σ passed
      (hs.runnable e (by simp [Stmt.exprs])) hs.at_code hag
    exact ⟨n, σ', hreach, hag'⟩
  | .declare (x := x) =>
    exact ⟨1, _, .of_effect (at_cons_iff.1 hs.at_code).1 rfl, hag.update x I.undefined⟩
  | .init (x := x) (e := e) =>
    obtain ⟨hat, hcopy⟩ := at_append_iff.1 hs.at_code
    obtain ⟨n, σ', hreach, hag', hval, -⟩ := reaches_code (I := I) hP e k pc ρ σ passed
      (hs.runnable e (by simp [Stmt.exprs])) hat hag
    refine ⟨n + 1, Function.update σ' x (e.eval I ρ).1, ?_, hag'.update _ _⟩
    rw [Stmt.code, List.length_append, ← Nat.add_assoc, ← hval]
    exact hreach.trans (.of_effect (at_cons_iff.1 hcopy).1 rfl)
  | .skip (c := c) (b := b) hc =>
    obtain ⟨hcond, -, hlabel⟩ := hs.ifThen
    obtain ⟨n, σ', hreach, hag'⟩ := reaches_condition_false hP hcode hcond hlabel hag hc passed
    have hstop : Passes I code P ⟨_, σ', passed⟩ _ .atEnd (c.eval I ρ).2 :=
      ⟨1, σ', reaches_label hlabel σ' passed, hag'⟩
    refine (hstop.after_reaches hreach rfl).of_eq ?_
    simp only [Stmt.code, List.length_append, List.length_cons, List.length_nil]
    omega
  | .ifThen (c := c) (b := b) hc body =>
    obtain ⟨hcond, hbody, hlabel⟩ := hs.ifThen
    obtain ⟨n, σ', hreach, hag'⟩ := reaches_condition_true hP hcond hag hc passed
    have hpasses := passes_codeAll hP hcode body _ _ _ σ' passed hbody hag'
    rw [← Block.code_eq] at hpasses
    have hstop := hpasses.extend fun σ => ⟨1, reaches_label hlabel σ passed⟩
    refine (hstop.after_reaches hreach rfl).of_eq ?_
    simp only [Stmt.code, List.length_append, List.length_cons, List.length_nil]
    omega
  | .ifElse (c := c) (b := b) hc body =>
    obtain ⟨done, other, hcond, hbody, hdone, hjump, -, -, hother, hlabel⟩ := hs.ifElse
    obtain ⟨n, σ', hreach, hag'⟩ := reaches_condition_true hP hcond hag hc passed
    have hpasses := passes_codeAll hP hcode body _ _ _ σ' passed hbody hag'
    rw [← Block.code_eq, ← hdone] at hpasses
    -- the code of the alternative is jumped over
    have hstop := hpasses.extend fun σ =>
      ⟨1 + 1, (reaches_jump hcode hjump hlabel σ passed).trans (reaches_label hlabel σ passed)⟩
    refine (hstop.after_reaches hreach rfl).of_eq ?_
    simp only [Stmt.code, List.length_append, List.length_cons, List.length_nil]
    omega
  | .otherwise (c := c) (b := b) hc alternative =>
    obtain ⟨done, other, hcond, -, hdone, -, hstart, halternative, hother, hlabel⟩ := hs.ifElse
    obtain ⟨n, σ', hreach, hag'⟩ := reaches_condition_false hP hcode hcond hstart hag hc passed
    have hpasses := passes_codeAll hP hcode alternative _ _ _ σ' passed halternative hag'
    rw [← Block.code_eq, ← hother] at hpasses
    have hstop := hpasses.extend fun σ => ⟨1, reaches_label hlabel σ passed⟩
    refine (hstop.after_reaches (hreach.trans (reaches_label hstart σ' passed)) rfl).of_eq ?_
    simp only [Stmt.code, List.length_append, List.length_cons, List.length_nil]
    omega
  | .exit (c := c) (b := b) hc =>
    obtain ⟨back, hagain, hcond, -, hback, -, hlabel⟩ := hs.loop
    obtain ⟨n, σ', hreach, hag'⟩ := reaches_condition_false hP hcode hcond hlabel hag hc passed
    have hstop : Passes I code P ⟨_, σ', passed⟩ _ .atEnd (c.eval I ρ).2 :=
      ⟨1, σ', reaches_label hlabel σ' passed, hag'⟩
    refine (hstop.after_reaches ((reaches_label hagain σ passed).trans hreach) rfl).of_eq ?_
    simp only [Stmt.code, List.length_append, List.length_cons, List.length_nil]
    omega
  | .again (c := c) (b := b) hc body rest =>
    obtain ⟨back, hagain, hcond, hbody, hback, hjump, -⟩ := hs.loop
    obtain ⟨n, σ', hreach, hag'⟩ := reaches_condition_true hP hcond hag hc passed
    obtain ⟨m, σ'', hround, hag''⟩ := passes_codeAll hP hcode body _ _ _ σ' passed hbody hag'
    rw [← Block.code_eq, ← hback] at hround
    -- back at the label, where the rest of the run begins
    have hpasses := passes_code hP hcode rest k l pc σ'' passed hs hag''
    exact hpasses.after_reaches ((((reaches_label hagain σ passed).trans hreach).trans hround).trans
      (reaches_jump hcode hjump hagain σ'' passed)) rfl
  | .leave (c := c) (b := b) hc body =>
    obtain ⟨back, hagain, hcond, hbody, -⟩ := hs.loop
    obtain ⟨n, σ', hreach, hag'⟩ := reaches_condition_true hP hcond hag hc passed
    obtain ⟨m, σ'', hhalt, hag''⟩ := passes_codeAll hP hcode body _ _ _ σ' passed hbody hag'
    exact ⟨_, σ'', .after_reaches ((reaches_label hagain σ passed).trans hreach) hhalt, hag''⟩
  | .ret => exact ⟨0, σ, .of_effect (at_cons_iff.1 hs.at_code).1 rfl, hag⟩
  | .retValue (e := e) =>
    obtain ⟨hat, hret⟩ := at_append_iff.1 hs.at_code
    obtain ⟨n, σ', hreach, hag', hval, -⟩ := reaches_code (I := I) hP e k pc ρ σ passed
      (hs.runnable e (by simp [Stmt.exprs])) hat hag
    rw [← hval]
    exact ⟨n + 0, σ', .after_reaches hreach (.of_effect (at_cons_iff.1 hret).1 rfl), hag'⟩

/-- The machine ends the `code` of statements as a run of the statements ends. -/
theorem passes_codeAll (hP : PlainNames P) (hcode : Resolves code) {ss : List Stmt}
    {ρ ρ' : Env V} {o : Ending V} (h : Stmt.RunAll I ss ρ o ρ') (k l pc : Nat) (σ : Env V)
    (passed : List V) (hss : StmtsAt code P k l pc ss) (hag : Agrees P ρ σ) :
    Passes I code P ⟨pc, σ, passed⟩ (pc + (Stmt.codeAll k l ss).length) o ρ' := by
  -- by recursion on the run
  match h with
  | .nil => exact ⟨0, σ, .refl, hag⟩
  | .cons first rest =>
    obtain ⟨hfirst, hrest⟩ := hss.cons
    obtain ⟨n, σ', hreach, hag'⟩ := passes_code hP hcode first k l pc σ passed hfirst hag
    have hpasses := passes_codeAll hP hcode rest _ _ _ σ' passed hrest hag'
    refine (hpasses.after_reaches hreach rfl).of_eq ?_
    rw [Stmt.codeAll, List.length_append, Nat.add_assoc]
  | .stop first => exact passes_code hP hcode first k l pc σ passed hss.cons.1 hag

end

/-! ### Where the machine halts, so does the source -/

/-- If the machine halts within `n` steps from the code of the statement, the statement has a
run. -/
def RunsWithin (I : Interpretation V) (code : List Instr) (P : List String) (n : Nat) (s : Stmt) :
    Prop :=
  ∀ (k l pc : Nat) (ρ σ : Env V) (passed : List V) (o : Ending V) (σ' : Env V),
    StmtAt code P k l pc s → Agrees P ρ σ → HaltsIn I code n ⟨pc, σ, passed⟩ o σ' →
      ∃ o ρ', s.Runs I ρ o ρ'

mutual

/-- `RunsWithin` holds for a statement, if it is known for loops with fewer steps left. -/
theorem runsWithin_of_lt (hP : PlainNames P) (hcode : Resolves code) {n : Nat}
    (ih : ∀ m < n, ∀ s, RunsWithin I code P m s) :
    ∀ (s : Stmt) (m : Nat), m ≤ n → RunsWithin I code P m s
  | .expr e pos, m, _ => fun k l pc ρ σ passed o σ' _ _ _ => ⟨_, _, .expr⟩
  | .declare t x none pos, m, _ => fun k l pc ρ σ passed o σ' _ _ _ => ⟨_, _, .declare⟩
  | .declare t x (some e) pos, m, _ => fun k l pc ρ σ passed o σ' _ _ _ => ⟨_, _, .init⟩
  | .ret none pos, m, _ => fun k l pc ρ σ passed o σ' _ _ _ => ⟨_, _, .ret⟩
  | .ret (some e) pos, m, _ => fun k l pc ρ σ passed o σ' _ _ _ => ⟨_, _, .retValue⟩
  | .ifThen c (.mk ss q) pos, m, hm => by
    intro k l pc ρ σ passed o σ' hs hag hhalts
    obtain ⟨hcond, hbody, -⟩ := hs.ifThen
    cases hc : I.truth (c.eval I ρ).1 with
    | false => exact ⟨_, _, .skip hc⟩
    | true =>
      obtain ⟨m', σ₁, hreach, hag₁⟩ := reaches_condition_true hP hcond hag hc passed
      obtain ⟨o', ρ', hrun⟩ := runAllWithin_of_lt hP hcode ih ss (m - m') (by omega) _ _ _
        _ σ₁ passed o σ' hbody hag₁ (hhalts.of_reaches hreach).2
      exact ⟨o', ρ', .ifThen hc hrun⟩
  | .ifElse c (.mk ss q) (.mk ss' q') pos, m, hm => by
    intro k l pc ρ σ passed o σ' hs hag hhalts
    obtain ⟨done, other, hcond, hbody, -, -, hstart, halternative, -⟩ := hs.ifElse
    cases hc : I.truth (c.eval I ρ).1 with
    | false =>
      obtain ⟨m', σ₁, hreach, hag₁⟩ := reaches_condition_false hP hcode hcond hstart hag hc passed
      have hreach := hreach.trans (reaches_label hstart σ₁ passed)
      obtain ⟨o', ρ', hrun⟩ := runAllWithin_of_lt hP hcode ih ss' (m - (m' + 1)) (by omega) _ _ _
        _ σ₁ passed o σ' halternative hag₁ (hhalts.of_reaches hreach).2
      exact ⟨o', ρ', .otherwise hc hrun⟩
    | true =>
      obtain ⟨m', σ₁, hreach, hag₁⟩ := reaches_condition_true hP hcond hag hc passed
      obtain ⟨o', ρ', hrun⟩ := runAllWithin_of_lt hP hcode ih ss (m - m') (by omega) _ _ _
        _ σ₁ passed o σ' hbody hag₁ (hhalts.of_reaches hreach).2
      exact ⟨o', ρ', .ifElse hc hrun⟩
  | .loop c (.mk ss q) pos, m, hm => by
    intro k l pc ρ σ passed o σ' hs hag hhalts
    obtain ⟨back, hagain, hcond, hbody, hback, hjump, -⟩ := hs.loop
    cases hc : I.truth (c.eval I ρ).1 with
    | false => exact ⟨_, _, .exit hc⟩
    | true =>
      obtain ⟨m', σ₁, hreach, hag₁⟩ := reaches_condition_true hP hcond hag hc passed
      have hreach := (reaches_label hagain σ passed).trans hreach
      obtain ⟨o', ρ₁, hrun⟩ := runAllWithin_of_lt hP hcode ih ss (m - (1 + m')) (by omega) _ _ _
        _ σ₁ passed o σ' hbody hag₁ (hhalts.of_reaches hreach).2
      cases o' with
      | returned value => exact ⟨_, ρ₁, .leave hc hrun⟩
      | atEnd =>
        -- the round is over, and the next one begins with fewer steps left
        obtain ⟨m'', σ₂, hround, hag₂⟩ := passes_codeAll hP hcode hrun _ _ _ σ₁ passed hbody hag₁
        rw [hback, Block.code_eq] at hjump
        have hround := (hreach.trans hround).trans (reaches_jump hcode hjump hagain σ₂ passed)
        obtain ⟨hle, hhalts'⟩ := hhalts.of_reaches hround
        obtain ⟨o', ρ', hrest⟩ := ih _ (by omega) (.loop c (.mk ss q) pos) k l pc ρ₁ σ₂ passed o σ'
          hs hag₂ hhalts'
        exact ⟨o', ρ', .again hc hrun hrest⟩

/-- Statements have a run, if `RunsWithin` is known for loops with fewer steps left. -/
theorem runAllWithin_of_lt (hP : PlainNames P) (hcode : Resolves code) {n : Nat}
    (ih : ∀ m < n, ∀ s, RunsWithin I code P m s) :
    ∀ (ss : List Stmt) (m : Nat), m ≤ n →
    ∀ (k l pc : Nat) (ρ σ : Env V) (passed : List V) (o : Ending V) (σ' : Env V),
      StmtsAt code P k l pc ss → Agrees P ρ σ → HaltsIn I code m ⟨pc, σ, passed⟩ o σ' →
        ∃ o ρ', Stmt.RunAll I ss ρ o ρ'
  | [], m, _ => fun k l pc ρ σ passed o σ' _ _ _ => ⟨_, _, .nil⟩
  | s :: ss, m, hm => by
    intro k l pc ρ σ passed o σ' hss hag hhalts
    obtain ⟨hfirst, hrest⟩ := hss.cons
    obtain ⟨o', ρ₁, hrun⟩ := runsWithin_of_lt hP hcode ih s m hm k l pc ρ σ passed o σ' hfirst hag
      hhalts
    -- a statement that returns is the last one; otherwise the machine goes on with fewer steps
    cases o' with
    | returned value => exact ⟨_, ρ₁, .stop hrun⟩
    | atEnd =>
      obtain ⟨m', σ₁, hreach, hag₁⟩ := passes_code hP hcode hrun k l pc σ passed hfirst hag
      obtain ⟨o', ρ', hruns⟩ := runAllWithin_of_lt hP hcode ih ss (m - m') (by omega) _ _ _ ρ₁ σ₁
        passed o σ' hrest hag₁ (hhalts.of_reaches hreach).2
      exact ⟨o', ρ', .cons hrun hruns⟩

end

/-- A statement from whose `code` the machine halts has a run. -/
theorem runsWithin (hP : PlainNames P) (hcode : Resolves code) (n : Nat) (s : Stmt) :
    RunsWithin I code P n s := by
  induction n using Nat.strongRecOn generalizing s with
  | ind n ih => exact runsWithin_of_lt hP hcode ih s n (Nat.le_refl n)

/-- Where the machine halts from the `code` of statements, the statements have a run. -/
theorem exists_run_of_halts (hP : PlainNames P) (hcode : Resolves code) {ss : List Stmt}
    {n k l pc : Nat} {ρ σ : Env V} {passed : List V} {o : Ending V} {σ' : Env V}
    (hss : StmtsAt code P k l pc ss) (hag : Agrees P ρ σ)
    (hhalts : HaltsIn I code n ⟨pc, σ, passed⟩ o σ') : ∃ o ρ', Stmt.RunAll I ss ρ o ρ' :=
  runAllWithin_of_lt hP hcode (fun m _ => runsWithin hP hcode m) ss n (Nat.le_refl n) k l pc ρ σ
    passed o σ' hss hag hhalts

/-! ### Bodies of functions -/

/-- The body of a function and its `code` end in the same way, with the same values of the
variables, or both do not end. -/
theorem runAll_iff_halts (hP : PlainNames P) (hcode : Resolves code) {f : Function} {k l pc : Nat}
    {ρ σ : Env V} (hexprs : ∀ e ∈ f.body.exprs, e.Runnable P)
    (hdeclared : ∀ x ∈ f.body.declared, x ∈ P)
    (hat : At code pc (f.code k l)) (hag : Agrees P ρ σ) (o : Ending V) (final : Env V) :
    (∃ ρ', Stmt.RunAll I f.body.statements ρ o ρ' ∧ Agrees P ρ' final) ↔
      ∃ σ', Halts I code ⟨pc, σ, []⟩ o σ' ∧ Agrees P σ' final := by
  rw [Block.exprs_eq] at hexprs
  rw [Block.declared_eq] at hdeclared
  simp only [Function.code, at_cons_iff, at_append_iff, Block.code_eq] at hat
  obtain ⟨hstart, hbody, hend, -⟩ := hat
  have hss : StmtsAt code P k l (pc + 1) f.body.statements := ⟨hexprs, hdeclared, hbody⟩
  have hreach : Reaches I code 1 ⟨pc, σ, []⟩ ⟨pc + 1, σ, []⟩ := .of_effect hstart rfl
  -- a run of the source is followed by the machine up to a return or to the end of the function
  have hforward : ∀ {o : Ending V} {ρ' : Env V}, Stmt.RunAll I f.body.statements ρ o ρ' →
      ∃ n σ', HaltsIn I code n ⟨pc, σ, []⟩ o σ' ∧ Agrees P ρ' σ' := by
    intro o ρ' hrun
    have hpasses := passes_codeAll hP hcode hrun k l _ σ [] hss hag
    cases o with
    | atEnd =>
      obtain ⟨n, σ', hstop, hag'⟩ := hpasses
      exact ⟨_, σ', .after_reaches (hreach.trans hstop) (.of_effect hend rfl), hag'⟩
    | returned value =>
      obtain ⟨n, σ', hhalts, hag'⟩ := hpasses
      exact ⟨_, σ', .after_reaches hreach hhalts, hag'⟩
  constructor
  · rintro ⟨ρ', hrun, hfinal⟩
    obtain ⟨n, σ', hhalts, hag'⟩ := hforward hrun
    exact ⟨σ', ⟨n, hhalts⟩, fun x hx => (hfinal x hx).trans (hag' x hx).symm⟩
  · rintro ⟨σ', ⟨n, hhalts⟩, hfinal⟩
    obtain ⟨o', ρ', hrun⟩ := exists_run_of_halts hP hcode hss hag (hhalts.of_reaches hreach).2
    obtain ⟨m, σ'', hhalts', hag'⟩ := hforward hrun
    obtain ⟨rfl, rfl⟩ := hhalts.unique hhalts'
    exact ⟨ρ', hrun, fun x hx => (hfinal x hx).trans (hag' x hx)⟩

end Machine

end Tricode
