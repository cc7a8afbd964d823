import Tricode.Proofs.Lowering.Faults
import Tricode.Proofs.Lowering.Layout
import Tricode.Program.Parser
import Tricode.Token.Scan

/-!
# Jumps and the shape of a listing

A listing is made of one routine for each function, in the order of the program, and no jump leaves
its routine. The labels are numbered without gaps, a conditional without an alternative has one
label and a conditional with one or a loop has two, and each label is where exactly one jump goes.
The jumps that go back are those that close a loop (`Program.LaidOut`, `laidOut_of_generate`).

That a jump which goes back closes a loop is proved along the tree: code that is put together from
parts jumps back only inside the parts, as long as no later part jumps into an earlier one
(`jumpsBack_append`).
-/

namespace Tricode

/-- The label that an instruction jumps to. -/
def Instr.target? : Instr → Option Nat
  | jumpUnless _ n => some n
  | jump n => some n
  | _ => none

/-! ### Statements inside statements -/

mutual

/-- The statement and all statements inside it. -/
def Stmt.parts : Stmt → List Stmt
  | .expr e pos => [.expr e pos]
  | .declare t x init pos => [.declare t x init pos]
  | .ifThen c b pos => .ifThen c b pos :: b.parts
  | .ifElse c b a pos => .ifElse c b a pos :: (b.parts ++ a.parts)
  | .loop c b pos => .loop c b pos :: b.parts
  | .ret value pos => [.ret value pos]

/-- All statements inside a block. -/
def Block.parts : Block → List Stmt
  | .mk ss _ => Stmt.partsAll ss

/-- The statements and all statements inside them. -/
def Stmt.partsAll : List Stmt → List Stmt
  | [] => []
  | s :: ss => s.parts ++ Stmt.partsAll ss

end

/-- All statements of a program. -/
def Program.statements (p : Program) : List Stmt :=
  p.functions.flatMap fun f => f.body.parts

mutual

/-- A statement evaluates what the statements inside it evaluate. -/
theorem Stmt.mem_exprs_of_mem_parts : ∀ (s : Stmt) {part : Stmt} {e : Expr}, part ∈ s.parts →
    e ∈ part.exprs → e ∈ s.exprs
  | .expr c pos, part, e, h, he => by
    rw [Stmt.parts, List.mem_singleton] at h
    exact h ▸ he
  | .declare t x init pos, part, e, h, he => by
    rw [Stmt.parts, List.mem_singleton] at h
    exact h ▸ he
  | .ret value pos, part, e, h, he => by
    rw [Stmt.parts, List.mem_singleton] at h
    exact h ▸ he
  | .ifThen c b pos, part, e, h, he => by
    rw [Stmt.parts, List.mem_cons] at h
    -- by recursion on the statement: the part is the statement itself or inside one of its blocks
    rcases h with rfl | h
    · exact he
    · exact List.mem_cons_of_mem _ (b.mem_exprs_of_mem_parts h he)
  | .ifElse c b a pos, part, e, h, he => by
    rw [Stmt.parts, List.mem_cons, List.mem_append] at h
    rcases h with rfl | h | h
    · exact he
    · exact List.mem_cons_of_mem _ (List.mem_append_left _ (b.mem_exprs_of_mem_parts h he))
    · exact List.mem_cons_of_mem _ (List.mem_append_right _ (a.mem_exprs_of_mem_parts h he))
  | .loop c b pos, part, e, h, he => by
    rw [Stmt.parts, List.mem_cons] at h
    rcases h with rfl | h
    · exact he
    · exact List.mem_cons_of_mem _ (b.mem_exprs_of_mem_parts h he)

theorem Block.mem_exprs_of_mem_parts : ∀ (b : Block) {part : Stmt} {e : Expr}, part ∈ b.parts →
    e ∈ part.exprs → e ∈ b.exprs
  | .mk ss _, _, _, h, he => Stmt.mem_exprsAll_of_mem_partsAll ss h he

theorem Stmt.mem_exprsAll_of_mem_partsAll : ∀ (ss : List Stmt) {part : Stmt} {e : Expr},
    part ∈ Stmt.partsAll ss → e ∈ part.exprs → e ∈ Stmt.exprsAll ss
  | [], part, e, h, he => by simp [Stmt.partsAll] at h
  | s :: ss, part, e, h, he => by
    rw [Stmt.partsAll, List.mem_append] at h
    rw [Stmt.exprsAll, List.mem_append]
    rcases h with h | h
    · exact .inl (s.mem_exprs_of_mem_parts h he)
    · exact .inr (Stmt.mem_exprsAll_of_mem_partsAll ss h he)

end

/-! ### Counting labels -/

/-- The statement is a conditional without an alternative. -/
def Stmt.isIfThen : Stmt → Bool
  | .ifThen .. => true
  | _ => false

/-- The statement is a conditional with an alternative. -/
def Stmt.isIfElse : Stmt → Bool
  | .ifElse .. => true
  | _ => false

/-- The statement is a loop. -/
def Stmt.isLoop : Stmt → Bool
  | .loop .. => true
  | _ => false

/-- The number of labels that statements have, apart from those of the statements inside them. -/
def Stmt.labelCount (ss : List Stmt) : Nat :=
  ss.countP Stmt.isIfThen + 2 * (ss.countP Stmt.isIfElse + ss.countP Stmt.isLoop)

/-- Statements one behind the other have the labels of both, by `labelCount`. -/
theorem Stmt.labelCount_append (ss ts : List Stmt) :
    Stmt.labelCount (ss ++ ts) = Stmt.labelCount ss + Stmt.labelCount ts := by
  unfold Stmt.labelCount
  rw [List.countP_append, List.countP_append, List.countP_append]
  omega

theorem Stmt.labelCount_cons (s : Stmt) (ss : List Stmt) :
    Stmt.labelCount (s :: ss) = Stmt.labelCount [s] + Stmt.labelCount ss :=
  Stmt.labelCount_append [s] ss

mutual

/-- The `labels` drawn for a statement are counted by its conditionals and loops. -/
theorem Stmt.labels_eq : ∀ s : Stmt, s.labels = Stmt.labelCount s.parts
  | .expr .. => rfl
  | .declare .. => rfl
  | .ret .. => rfl
  | .ifThen c b pos => by
    rw [Stmt.labels, Stmt.parts, Stmt.labelCount_cons, b.labels_eq, Nat.add_comm]
    rfl
  | .ifElse c b a pos => by
    rw [Stmt.labels, Stmt.parts, Stmt.labelCount_cons, Stmt.labelCount_append, b.labels_eq,
      a.labels_eq, Nat.add_comm]
    rfl
  | .loop c b pos => by
    rw [Stmt.labels, Stmt.parts, Stmt.labelCount_cons, b.labels_eq, Nat.add_comm]
    rfl

/-- The `labels` drawn for a block are counted by its conditionals and loops. -/
theorem Block.labels_eq : ∀ b : Block, b.labels = Stmt.labelCount b.parts
  | .mk ss _ => Stmt.labelsAll_eq ss

theorem Stmt.labelsAll_eq : ∀ ss : List Stmt,
    Stmt.labelsAll ss = Stmt.labelCount (Stmt.partsAll ss)
  | [] => rfl
  | s :: ss => by
    rw [Stmt.labelsAll, Stmt.partsAll, Stmt.labelCount_append, s.labels_eq, Stmt.labelsAll_eq ss]

end

/-- The labels drawn for a program are counted by its conditionals and loops, with `labelCount`. -/
theorem Program.labelsAll_eq (p : Program) :
    Function.labelsAll p.functions = Stmt.labelCount p.statements := by
  unfold Program.statements
  induction p.functions with
  | nil => rfl
  | cons f fs ih =>
    rw [Function.labelsAll, List.flatMap_cons, Stmt.labelCount_append, f.body.labels_eq, ih]

/-! ### Where jumps go -/

/-- There are no jumps in the `code` of an expression. -/
theorem Expr.filterMap_target?_code (e : Expr) (k : Nat) :
    (e.code k).filterMap Instr.target? = [] := by
  rw [List.filterMap_eq_nil_iff]
  intro i hi
  have hstraight := Expr.isStraight_of_mem_code e k i hi
  cases i <;> simp_all [Instr.isStraight, Instr.target?]

mutual

/-- Every label of a statement is the `target?` of exactly one jump of the statement. -/
theorem Stmt.targets_code : ∀ (s : Stmt) (k l : Nat),
    ((s.code k l).filterMap Instr.target?).Perm (List.range' l s.labels)
  | .expr e pos, k, l => by simp [Stmt.code, Stmt.labels, Expr.filterMap_target?_code]
  | .declare t x none pos, k, l => by simp [Stmt.code, Stmt.labels, Instr.target?]
  | .declare t x (some e) pos, k, l => by
    simp [Stmt.code, Stmt.labels, Expr.filterMap_target?_code, Instr.target?]
  | .ret none pos, k, l => by simp [Stmt.code, Stmt.labels, Instr.target?]
  | .ret (some e) pos, k, l => by
    simp [Stmt.code, Stmt.labels, Expr.filterMap_target?_code, Instr.target?]
  | .ifThen c b pos, k, l => by
    have hb := b.targets_code (k + c.temps) (l + 1)
    simp only [Stmt.code, Stmt.labels, List.filterMap_append, Expr.filterMap_target?_code,
      List.filterMap_cons, Instr.target?, List.filterMap_nil, List.nil_append, List.append_nil,
      List.range'_succ]
    exact hb.cons l
  | .ifElse c b a pos, k, l => by
    have hb := b.targets_code (k + c.temps) (l + 2)
    have ha := a.targets_code (k + c.temps + b.temps) (l + 2 + b.labels)
    simp only [Stmt.code, Stmt.labels, List.filterMap_append, Expr.filterMap_target?_code,
      List.filterMap_cons, Instr.target?, List.filterMap_nil, List.nil_append, List.append_nil,
      List.range'_succ]
    refine List.Perm.cons l (List.perm_middle.trans (List.Perm.cons (l + 1) ?_))
    rw [← List.range'_append_1]
    exact hb.append ha
  | .loop c b pos, k, l => by
    have hb := b.targets_code (k + c.temps) (l + 2)
    simp only [Stmt.code, Stmt.labels, List.filterMap_append, Expr.filterMap_target?_code,
      List.filterMap_cons, Instr.target?, List.filterMap_nil, List.nil_append, List.range'_succ]
    -- the jump to the exit comes first, and the jump to the start last
    refine (((List.perm_append_singleton l _).trans (hb.cons l)).cons (l + 1)).trans ?_
    exact List.Perm.swap l (l + 1) _

/-- Every label of a block is the `target?` of exactly one jump of the block. -/
theorem Block.targets_code : ∀ (b : Block) (k l : Nat),
    ((b.code k l).filterMap Instr.target?).Perm (List.range' l b.labels)
  | .mk ss _, k, l => Stmt.targets_codeAll ss k l

theorem Stmt.targets_codeAll : ∀ (ss : List Stmt) (k l : Nat),
    ((Stmt.codeAll k l ss).filterMap Instr.target?).Perm (List.range' l (Stmt.labelsAll ss))
  | [], k, l => by simp [Stmt.codeAll, Stmt.labelsAll]
  | s :: ss, k, l => by
    have hs := s.targets_code k l
    have hss := Stmt.targets_codeAll ss (k + s.temps) (l + s.labels)
    rw [Stmt.codeAll, Stmt.labelsAll, List.filterMap_append, ← List.range'_append_1]
    exact hs.append hss

end

theorem Function.targets_code (f : Function) (k l : Nat) :
    ((f.code k l).filterMap Instr.target?).Perm (List.range' l f.body.labels) := by
  rw [Function.code, List.filterMap_cons, List.filterMap_append]
  simpa only [List.filterMap_cons, List.filterMap_nil, Instr.target?, List.append_nil]
    using f.body.targets_code k l

/-- Every label of a listing is the `target?` of exactly one jump. -/
theorem Function.targets_codeAll (fs : List Function) (k l : Nat) :
    ((Function.codeAll k l fs).filterMap Instr.target?).Perm
      (List.range' l (Function.labelsAll fs)) := by
  induction fs generalizing k l with
  | nil => simp [Function.codeAll, Function.labelsAll]
  | cons f fs ih =>
    rw [Function.codeAll, Function.labelsAll, List.filterMap_append, ← List.range'_append_1]
    exact (f.targets_code k l).append (ih (k + f.body.temps) (l + f.body.labels))

/-- The `target?` of a jump in a block is a label in the block. -/
theorem Block.label_mem_code (b : Block) {k l : Nat} {i : Instr} {n : Nat} (hi : i ∈ b.code k l)
    (hn : i.target? = some n) : Instr.label n ∈ b.code k l := by
  have htarget : n ∈ (b.code k l).filterMap Instr.target? := List.mem_filterMap.2 ⟨i, hi, hn⟩
  have hlabel : n ∈ (b.code k l).filterMap Instr.label? := by
    rw [(b.labels_code k l).mem_iff]
    exact (b.targets_code k l).mem_iff.1 htarget
  obtain ⟨j, hj, hjn⟩ := List.mem_filterMap.1 hlabel
  obtain rfl : j = .label n := by
    cases j <;> simp_all [Instr.label?]
  exact hj

/-! ### Jumps that go back -/

/-- The instruction at `pc` jumps to a label that stands before it. -/
def JumpsBack (code : List Instr) (pc : Nat) : Prop :=
  ∃ i n q, code[pc]? = some i ∧ i.target? = some n ∧ code[q]? = some (.label n) ∧ q < pc

/-- What one of the loops is lowered to stands in the listing, and its last instruction but one, the
jump to its start, stands at `pc`. -/
def ClosesLoop (ss : List Stmt) (code : List Instr) (pc : Nat) : Prop :=
  ∃ c b pos counters start, Stmt.loop c b pos ∈ ss ∧
    Machine.At code start (Lowering.lower (Stmt.loop c b pos).toNode counters).log ∧
    pc + 2 = start + (Lowering.lower (Stmt.loop c b pos).toNode counters).log.length

/-- Only the jumps that close one of the loops go back. -/
def BackOnlyInLoops (ss : List Stmt) (code : List Instr) : Prop :=
  ∀ pc, JumpsBack code pc → ClosesLoop ss code pc

variable {ss ts : List Stmt} {is js : List Instr} {pc : Nat}

/-- A place that `JumpsBack` still does so if what stands behind it is cut off. -/
theorem JumpsBack.of_append_lt (h : JumpsBack (is ++ js) pc) (hpc : pc < is.length) :
    JumpsBack is pc := by
  obtain ⟨i, n, q, hi, hn, hq, hlt⟩ := h
  rw [List.getElem?_append_left hpc] at hi
  rw [List.getElem?_append_left (by omega)] at hq
  exact ⟨i, n, q, hi, hn, hq, hlt⟩

/-- Where two pieces of code stand one behind the other and the second does not jump into the first,
a place that `JumpsBack` does so inside one of them. -/
theorem jumpsBack_append (hapart : ∀ n ∈ js.filterMap Instr.target?, n ∉ is.filterMap Instr.label?)
    (h : JumpsBack (is ++ js) pc) :
    JumpsBack is pc ∨ ∃ d, pc = is.length + d ∧ JumpsBack js d := by
  by_cases hpc : pc < is.length
  · exact .inl (h.of_append_lt hpc)
  obtain ⟨i, n, q, hi, hn, hq, hlt⟩ := h
  rw [List.getElem?_append_right (by omega)] at hi
  have htarget : n ∈ js.filterMap Instr.target? :=
    List.mem_filterMap.2 ⟨i, List.mem_of_getElem? hi, hn⟩
  -- the label is in the second piece as well, since no jump there goes into the first
  have hle : is.length ≤ q := by
    by_contra hq'
    rw [List.getElem?_append_left (by omega)] at hq
    exact hapart n htarget (List.mem_filterMap.2 ⟨_, List.mem_of_getElem? hq, rfl⟩)
  rw [List.getElem?_append_right hle] at hq
  exact .inr ⟨pc - is.length, by omega, i, n, q - is.length, hi, hn, hq, by omega⟩

/-- A place that `ClosesLoop` closes one of more statements. -/
theorem ClosesLoop.mono (hsub : ∀ s ∈ ss, s ∈ ts) (h : ClosesLoop ss is pc) :
    ClosesLoop ts is pc := by
  obtain ⟨c, b, pos, counters, start, hmem, hat, hpc⟩ := h
  exact ⟨c, b, pos, counters, start, hsub _ hmem, hat, hpc⟩

/-- A place that `ClosesLoop` does so if more code follows. -/
theorem ClosesLoop.append_left (h : ClosesLoop ss is pc) : ClosesLoop ss (is ++ js) pc := by
  obtain ⟨c, b, pos, counters, start, hmem, hat, hpc⟩ := h
  refine ⟨c, b, pos, counters, start, hmem, hat.trans ?_, hpc⟩
  rw [List.drop_append]
  exact List.prefix_append _ _

/-- A place that `ClosesLoop` does so if other code stands in front. -/
theorem ClosesLoop.append_right (h : ClosesLoop ss js pc) :
    ClosesLoop ss (is ++ js) (is.length + pc) := by
  obtain ⟨c, b, pos, counters, start, hmem, hat, hpc⟩ := h
  refine ⟨c, b, pos, counters, is.length + start, hmem, ?_, by omega⟩
  rw [Machine.At, List.drop_length_add_append]
  exact hat

theorem BackOnlyInLoops.mono (h : BackOnlyInLoops ss is) (hsub : ∀ s ∈ ss, s ∈ ts) :
    BackOnlyInLoops ts is :=
  fun pc hback => (h pc hback).mono hsub

/-- Pieces of code that go `BackOnlyInLoops`, the second of which does not jump into the first. -/
theorem BackOnlyInLoops.append (his : BackOnlyInLoops ss is) (hjs : BackOnlyInLoops ss js)
    (hapart : ∀ n ∈ js.filterMap Instr.target?, n ∉ is.filterMap Instr.label?) :
    BackOnlyInLoops ss (is ++ js) := by
  intro pc hback
  rcases jumpsBack_append hapart hback with hleft | ⟨d, rfl, hright⟩
  · exact (his pc hleft).append_left
  · exact (hjs d hright).append_right

/-- The `code` of an expression, which only goes on, may stand before any other. -/
theorem BackOnlyInLoops.after_expr (e : Expr) (k : Nat) (hjs : BackOnlyInLoops ss js) :
    BackOnlyInLoops ss (e.code k ++ js) := by
  have he : BackOnlyInLoops ss (e.code k) := by
    rintro pc ⟨i, n, q, hi, hn, -, -⟩
    have hmem : n ∈ (e.code k).filterMap Instr.target? :=
      List.mem_filterMap.2 ⟨i, List.mem_of_getElem? hi, hn⟩
    rw [Expr.filterMap_target?_code] at hmem
    exact absurd hmem List.not_mem_nil
  refine he.append hjs fun n _ => ?_
  -- and there is no label to jump to
  rw [Expr.filterMap_label?_code]
  exact List.not_mem_nil

theorem backOnlyInLoops_nil : BackOnlyInLoops ss [] := by
  rintro pc ⟨i, n, q, hi, -⟩
  cases hi

/-- A single instruction does not jump back. -/
theorem BackOnlyInLoops.cons {i : Instr} (hjs : BackOnlyInLoops ss js)
    (hapart : ∀ n ∈ js.filterMap Instr.target?, i ≠ .label n) : BackOnlyInLoops ss (i :: js) := by
  have hi : BackOnlyInLoops ss [i] := by
    rintro pc ⟨j, n, q, hj, -, -, hlt⟩
    have hpc : pc < 1 := (List.getElem?_eq_some_iff.1 hj).1
    omega
  refine hi.append hjs fun n hn hmem => ?_
  rw [List.filterMap_cons, List.filterMap_nil] at hmem
  refine hapart n hn ?_
  cases i <;> simp_all [Instr.label?]

theorem BackOnlyInLoops.append_label (his : BackOnlyInLoops ss is) (n : Nat) :
    BackOnlyInLoops ss (is ++ [.label n]) :=
  his.append (backOnlyInLoops_nil.cons (by simp)) (by simp [Instr.target?])

/-- Where a jump and a label end the code, a jump that goes back is that jump or stands before
it. -/
theorem JumpsBack.of_append_close {n m : Nat} (h : JumpsBack (is ++ [.jump n, .label m]) pc) :
    JumpsBack is pc ∨ pc = is.length := by
  by_cases hpc : pc < is.length
  · exact .inl (h.of_append_lt hpc)
  right
  obtain ⟨i, t, q, hi, ht, -, -⟩ := h
  rw [List.getElem?_append_right (by omega)] at hi
  -- behind the code there are two places, and the label is no jump
  rcases hd : pc - is.length with _ | _ | d
  · omega
  · rw [hd] at hi
    obtain rfl := Option.some.inj hi
    cases ht
  · rw [hd] at hi
    cases hi

/-- The code of a loop without its last two instructions, which are the jump to its start and the
label of its exit. -/
def Stmt.loopFront (c : Expr) (b : Block) (k l : Nat) : List Instr :=
  .label l :: (c.code k ++ (.jumpUnless (c.operand k) (l + 1) :: b.code (k + c.temps) (l + 2)))

/-- The `code` of a loop: its front, the jump that closes it, and the label behind it. -/
theorem Stmt.code_loop (c : Expr) (b : Block) (pos : Pos) (k l : Nat) :
    (Stmt.loop c b pos).code k l = Stmt.loopFront c b k l ++ [.jump l, .label (l + 1)] := by
  simp only [Stmt.code, Stmt.loopFront, List.cons_append, List.append_assoc]

mutual

/-- In the `code` of a statement only the jumps that close a loop go back. -/
theorem Stmt.backOnlyInLoops_code : ∀ (s : Stmt) (k l : Nat), (∀ e ∈ s.exprs, e.CallsNames) →
    BackOnlyInLoops s.parts (s.code k l)
  | .expr e pos, k, l, _ => by
    rw [Stmt.code, ← List.append_nil (e.code k)]
    exact backOnlyInLoops_nil.after_expr e k
  | .declare t x none pos, k, l, _ => backOnlyInLoops_nil.cons (by simp)
  | .declare t x (some e) pos, k, l, _ => (backOnlyInLoops_nil.cons (by simp)).after_expr e k
  | .ret none pos, k, l, _ => backOnlyInLoops_nil.cons (by simp)
  | .ret (some e) pos, k, l, _ => (backOnlyInLoops_nil.cons (by simp)).after_expr e k
  | .ifThen c b pos, k, l, h => by
    have hb : BackOnlyInLoops (Stmt.ifThen c b pos).parts (b.code (k + c.temps) (l + 1)) :=
      (b.backOnlyInLoops_code _ _ fun e he => h e (by simp [Stmt.exprs, he])).mono
        fun s hs => by simp [Stmt.parts, hs]
    exact ((hb.append_label l).cons (by simp)).after_expr c k
  | .ifElse c b a pos, k, l, h => by
    have hb : BackOnlyInLoops (Stmt.ifElse c b a pos).parts (b.code (k + c.temps) (l + 2)) :=
      (b.backOnlyInLoops_code _ _ fun e he => h e (by simp [Stmt.exprs, he])).mono
        fun s hs => by simp [Stmt.parts, hs]
    have ha : BackOnlyInLoops (Stmt.ifElse c b a pos).parts
        (a.code (k + c.temps + b.temps) (l + 2 + b.labels)) :=
      (a.backOnlyInLoops_code _ _ fun e he => h e (by simp [Stmt.exprs, he])).mono
        fun s hs => by simp [Stmt.parts, hs]
    have htail : BackOnlyInLoops (Stmt.ifElse c b a pos).parts
        (.label l :: (a.code (k + c.temps + b.temps) (l + 2 + b.labels) ++ [.label (l + 1)])) := by
      refine (ha.append_label (l + 1)).cons fun n hn heq => ?_
      have hl : l = n := Instr.label.inj heq
      simp only [List.filterMap_append, List.filterMap_cons, Instr.target?, List.filterMap_nil,
        List.append_nil, (a.targets_code _ _).mem_iff, List.mem_range'_1] at hn
      omega
    refine ((hb.append (htail.cons (i := .jump (l + 1)) (by simp)) ?_).cons (by simp)).after_expr
      c k
    -- neither the jump behind the body nor the alternative goes into the body
    intro n hn hmem
    rw [(b.labels_code _ _).mem_iff, List.mem_range'_1] at hmem
    simp only [List.filterMap_cons, Instr.target?, List.filterMap_append, List.filterMap_nil,
      List.append_nil, List.mem_cons, (a.targets_code _ _).mem_iff, List.mem_range'_1] at hn
    omega
  | .loop c b pos, k, l, h => by
    have hb : BackOnlyInLoops (Stmt.loop c b pos).parts (b.code (k + c.temps) (l + 2)) :=
      (b.backOnlyInLoops_code _ _ fun e he => h e (by simp [Stmt.exprs, he])).mono
        fun s hs => by simp [Stmt.parts, hs]
    have hfront : BackOnlyInLoops (Stmt.loop c b pos).parts (Stmt.loopFront c b k l) := by
      refine ((hb.cons (by simp)).after_expr c k).cons fun n hn heq => ?_
      have hl : l = n := Instr.label.inj heq
      simp only [List.filterMap_append, Expr.filterMap_target?_code, List.nil_append,
        List.filterMap_cons, Instr.target?, List.mem_cons, (b.targets_code _ _).mem_iff,
        List.mem_range'_1] at hn
      omega
    intro pc hback
    have hcode : (Lowering.lower (Stmt.loop c b pos).toNode ⟨k, l⟩).log =
        Stmt.loopFront c b k l ++ [.jump l, .label (l + 1)] := by
      rw [Lowering.lower_stmt _ _ h, Stmt.code_loop]
    rw [Stmt.code_loop] at hback ⊢
    rcases hback.of_append_close with hback | rfl
    · exact (hfront pc hback).append_left
    · refine ⟨c, b, pos, ⟨k, l⟩, 0, by simp [Stmt.parts], ?_, ?_⟩
      · rw [hcode]
        exact List.prefix_rfl
      · rw [hcode, List.length_append, Nat.zero_add]
        rfl

/-- In the `code` of a block only the jumps that close a loop go back. -/
theorem Block.backOnlyInLoops_code : ∀ (b : Block) (k l : Nat), (∀ e ∈ b.exprs, e.CallsNames) →
    BackOnlyInLoops b.parts (b.code k l)
  | .mk ss _, k, l, h => Stmt.backOnlyInLoops_codeAll ss k l h

theorem Stmt.backOnlyInLoops_codeAll : ∀ (ss : List Stmt) (k l : Nat),
    (∀ e ∈ Stmt.exprsAll ss, e.CallsNames) →
    BackOnlyInLoops (Stmt.partsAll ss) (Stmt.codeAll k l ss)
  | [], k, l, _ => backOnlyInLoops_nil
  | s :: ss, k, l, h => by
    rw [Stmt.exprsAll, List.forall_mem_append] at h
    have hs : BackOnlyInLoops (Stmt.partsAll (s :: ss)) (s.code k l) :=
      (s.backOnlyInLoops_code k l h.1).mono fun t ht => by simp [Stmt.partsAll, ht]
    have hss : BackOnlyInLoops (Stmt.partsAll (s :: ss))
        (Stmt.codeAll (k + s.temps) (l + s.labels) ss) :=
      (Stmt.backOnlyInLoops_codeAll ss _ _ h.2).mono fun t ht => by simp [Stmt.partsAll, ht]
    refine hs.append hss fun n hn hmem => ?_
    -- the labels of the two pieces are numbered apart
    rw [(Stmt.targets_codeAll ss _ _).mem_iff, List.mem_range'_1] at hn
    rw [(s.labels_code k l).mem_iff, List.mem_range'_1] at hmem
    omega

end

theorem Function.backOnlyInLoops_code (f : Function) (k l : Nat)
    (h : ∀ e ∈ f.body.exprs, e.CallsNames) : BackOnlyInLoops f.body.parts (f.code k l) := by
  have hend : BackOnlyInLoops f.body.parts [.functionEnd f.name] :=
    backOnlyInLoops_nil.cons (by simp)
  exact ((f.body.backOnlyInLoops_code k l h).append hend (by simp [Instr.target?])).cons (by simp)

/-- A listing goes `BackOnlyInLoops`. -/
theorem Function.backOnlyInLoops_codeAll (fs : List Function) (k l : Nat)
    (h : ∀ f ∈ fs, ∀ e ∈ f.body.exprs, e.CallsNames) :
    BackOnlyInLoops (fs.flatMap fun f => f.body.parts) (Function.codeAll k l fs) := by
  induction fs generalizing k l with
  | nil => exact backOnlyInLoops_nil
  | cons f fs ih =>
    rw [List.forall_mem_cons] at h
    rw [List.flatMap_cons, Function.codeAll]
    refine ((f.backOnlyInLoops_code k l h.1).mono fun t ht => List.mem_append_left _ ht).append
      ((ih _ _ h.2).mono fun t ht => List.mem_append_right _ ht) fun n hn hmem => ?_
    rw [(Function.targets_codeAll fs _ _).mem_iff, List.mem_range'_1] at hn
    rw [(f.labels_code k l).mem_iff, List.mem_range'_1] at hmem
    omega

/-- The jump that `ClosesLoop` goes back to the start of the loop. -/
theorem ClosesLoop.jumpsBack (hcalls : ∀ s ∈ ss, ∀ e ∈ s.exprs, e.CallsNames)
    (h : ClosesLoop ss is pc) : JumpsBack is pc := by
  obtain ⟨c, b, pos, ⟨k, l⟩, start, hmem, hat, hpc⟩ := h
  have hcode : (Lowering.lower (Stmt.loop c b pos).toNode ⟨k, l⟩).log =
      Stmt.loopFront c b k l ++ [.jump l, .label (l + 1)] := by
    rw [Lowering.lower_stmt _ _ (hcalls _ hmem), Stmt.code_loop]
  rw [hcode] at hat hpc
  obtain ⟨hfront, hrest⟩ := Machine.at_append_iff.1 hat
  -- a loop begins with its label and ends with the jump to it
  have hlabel : is[start]? = some (.label l) := (Machine.at_cons_iff.1 hfront).1
  have hjump : is[start + (Stmt.loopFront c b k l).length]? = some (.jump l) :=
    (Machine.at_cons_iff.1 hrest).1
  have hlength : 0 < (Stmt.loopFront c b k l).length := Nat.zero_lt_succ _
  rw [List.length_append, List.length_cons, List.length_singleton] at hpc
  obtain rfl : pc = start + (Stmt.loopFront c b k l).length := by omega
  exact ⟨.jump l, l, start, hjump, rfl, hlabel, by omega⟩

/-! ### Routines -/

/-- A function as it stands in a listing. -/
structure Routine where
  name : String
  body : List Instr

/-- The lines of a routine. -/
def Routine.code (r : Routine) : List Instr :=
  .functionStart r.name :: (r.body ++ [.functionEnd r.name])

/-- No function begins or ends inside the routine, and each jump goes to a label of the routine. -/
structure Routine.Closed (r : Routine) : Prop where
  isInner : ∀ i ∈ r.body, i.isInner = true
  label_mem : ∀ i ∈ r.body, ∀ n, i.target? = some n → Instr.label n ∈ r.body

/-- A listing has one closed routine for each function of the program, in the order of the program,
and its labels and jumps are those of the conditionals and loops of the program. -/
structure Program.LaidOut (p : Program) (code : List Instr) : Prop where
  routines : ∃ rs : List Routine, rs.map Routine.name = p.functions.map Function.name ∧
    (∀ r ∈ rs, r.Closed) ∧ code = rs.flatMap Routine.code
  /-- The labels are numbered from zero, and each stands in one place. -/
  labels : (code.filterMap Instr.label?).Perm (List.range (Stmt.labelCount p.statements))
  /-- Each label is where exactly one jump goes. -/
  targets : (code.filterMap Instr.target?).Perm (List.range (Stmt.labelCount p.statements))
  jumpsBack_iff : ∀ pc, JumpsBack code pc ↔ ClosesLoop p.statements code pc

/-- The `code` of functions is a row of routines with their names, each `Closed` in itself. -/
theorem Function.exists_routines (fs : List Function) (k l : Nat) :
    ∃ rs : List Routine, rs.map Routine.name = fs.map Function.name ∧ (∀ r ∈ rs, r.Closed) ∧
      Function.codeAll k l fs = rs.flatMap Routine.code := by
  induction fs generalizing k l with
  | nil => exact ⟨[], rfl, by simp, rfl⟩
  | cons f fs ih =>
    obtain ⟨rs, hnames, hclosed, hcode⟩ := ih (k + f.body.temps) (l + f.body.labels)
    have hf : (Routine.mk f.name (f.body.code k l)).Closed :=
      ⟨f.body.isInner_of_mem_code k l, fun i hi n hn => f.body.label_mem_code hi hn⟩
    refine ⟨⟨f.name, f.body.code k l⟩ :: rs, ?_, List.forall_mem_cons.2 ⟨hf, hclosed⟩, ?_⟩
    · rw [List.map_cons, List.map_cons, hnames]
    · rw [Function.codeAll, hcode, List.flatMap_cons]
      rfl

/-- What a program is lowered to is `LaidOut` as its functions, conditionals and loops say. -/
theorem laidOut_of_generate (p : Program) (code : List Instr) (h : generate p = .ok code) :
    p.LaidOut code := by
  -- there is code, so only names are called
  have hcalls : p.CallsNames := by
    rcases generate_cases p with ⟨hcalls, -⟩ | ⟨-, fault, hfault, -⟩
    · exact hcalls
    · rw [h] at hfault
      cases hfault
  obtain rfl : Function.codeAll 0 0 p.functions = code :=
    Except.ok.inj ((generate_eq hcalls).symm.trans h)
  have hparts : ∀ s ∈ p.statements, ∀ e ∈ s.exprs, e.CallsNames := by
    intro s hs e he
    obtain ⟨f, hf, hs⟩ := List.mem_flatMap.1 hs
    exact hcalls f hf e (f.body.mem_exprs_of_mem_parts hs he)
  have hlabels := Function.labels_codeAll p.functions 0 0
  have htargets := Function.targets_codeAll p.functions 0 0
  -- as many labels as the conditionals and loops need
  rw [p.labelsAll_eq, ← List.range_eq_range'] at hlabels htargets
  refine ⟨Function.exists_routines p.functions 0 0, hlabels, htargets, fun pc => ⟨?_, ?_⟩⟩
  · exact Function.backOnlyInLoops_codeAll p.functions 0 0 hcalls pc
  · exact fun hcloses => hcloses.jumpsBack hparts

/-- A loop around a conditional with an alternative, and a function with a conditional without
one. -/
def branching : String :=
  "int f(int n) \x7b while (n > 0) \x7b if (n > 9) \x7b n = 9; \x7d else \x7b n = n - 1; \x7d \x7d
  return n; \x7d
  int g() \x7b if (f(3) > 0) \x7b return 1; \x7d return 0; \x7d"

/-- In `branching` there are five labels, and the only jump that goes back is the one behind the
conditional. -/
theorem laidOut_branching :
    ∃ code, generate (parse (scan branching).1).1 = .ok code ∧
      (parse (scan branching).1).1.LaidOut code ∧
      Stmt.labelCount (parse (scan branching).1).1.statements = 5 ∧
      code[12]? = some (.jump 0) ∧ ClosesLoop (parse (scan branching).1).1.statements code 12 := by
  obtain ⟨code, hcode, hlabel, hjump⟩ : ∃ code ∈ (generate (parse (scan branching).1).1).toOption,
      code[1]? = some (.label 0) ∧ code[12]? = some (.jump 0) := by
    decide +kernel
  -- the evaluated code is the code there is
  have hgenerate : generate (parse (scan branching).1).1 = .ok code := by
    cases h : generate (parse (scan branching).1).1 with
    | ok code' =>
      rw [h] at hcode
      exact congrArg Except.ok (Option.some.inj hcode)
    | error fault =>
      rw [h] at hcode
      cases hcode
  have hlaid := laidOut_of_generate _ code hgenerate
  refine ⟨code, hgenerate, hlaid, by decide +kernel, hjump, ?_⟩
  exact (hlaid.jumpsBack_iff 12).1 ⟨.jump 0, 0, 1, hjump, rfl, hlabel, by decide⟩

end Tricode
