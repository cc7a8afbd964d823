import Mathlib.Data.List.Nodup
import Tricode.Proofs.Lowering.Code
import Tricode.Proofs.Machine

/-!
# What code writes

An instruction gives a value to a temporary, whose number is `Instr.result?`, or to a variable,
which is `Instr.assignee?`. The code of a program computes its temporaries in the order of their
numbers and each of them once (`Function.results_codeAll`), and the variables it writes are those
that the program declares or assigns (`Function.mem_assignees_codeAll`).
-/

namespace Tricode

namespace Instr

/-- The number of the temporary that an operation or a call computes. -/
def result? : Instr → Option Nat
  | binary dest _ _ _ => some dest
  | unary dest _ _ => some dest
  | call dest _ _ => some dest
  | _ => none

/-- The variable that an instruction assigns or declares. -/
def assignee? : Instr → Option String
  | copy dest _ => some dest
  | declare x => some x
  | _ => none

/-- The name to which an instruction gives a value. -/
def written? : Instr → Option String
  | copy dest _ => some dest
  | declare x => some x
  | binary dest _ _ _ => some (tempName dest)
  | unary dest _ _ => some (tempName dest)
  | call dest _ _ => some (tempName dest)
  | _ => none

/-- An instruction writes its `result?` or its `assignee?`. -/
theorem written?_eq_some_iff {i : Instr} {x : String} :
    i.written? = some x ↔ (∃ n, i.result? = some n ∧ tempName n = x) ∨ i.assignee? = some x := by
  cases i <;> simp [written?, result?, assignee?]

end Instr

/-- How many instructions of a listing give a value to the name. -/
def writes (code : List Instr) (x : String) : Nat :=
  (code.filterMap Instr.written?).count x

/-- A name is written as a temporary or as a variable, and `writes` counts both. -/
theorem writes_eq (code : List Instr) (x : String) :
    writes code x = ((code.filterMap Instr.result?).map tempName).count x +
      (code.filterMap Instr.assignee?).count x := by
  induction code with
  | nil => rfl
  | cons i code ih =>
    unfold writes at ih ⊢
    -- five kinds of instructions write, each one name
    cases i with
    | copy | declare | binary | unary | call =>
      simp only [List.filterMap_cons, Instr.written?, Instr.result?, Instr.assignee?, List.map_cons,
        List.count_cons, ih]
      omega
    | _ => simpa only [List.filterMap_cons, Instr.written?, Instr.result?, Instr.assignee?] using ih

/-! ### Temporaries -/

namespace Expr

mutual

/-- The `code` of an expression computes its temporaries in the order of their numbers. -/
theorem results_code : ∀ (e : Expr) (k : Nat),
    (e.code k).filterMap Instr.result? = List.range' k e.temps
  | literal .., k => rfl
  | ident .., k => rfl
  | unary op e pos, k => by
    have he := results_code e k
    simp only [code, temps, List.filterMap_append, he, List.range'_1_concat]
    rfl
  | binary op l r pos, k => by
    have hl := results_code l k
    have hr := results_code r (k + l.temps)
    simp only [code, temps, List.filterMap_append, hl, hr, List.range'_1_concat,
      ← List.range'_append_1, Nat.add_assoc]
    rfl
  | call f args pos, k => by
    have hargs := results_codeAll args k
    -- passing operands computes nothing
    have hparams : ((operands k args).map Instr.param).filterMap Instr.result? = [] := by
      simp [List.filterMap_eq_nil_iff, Instr.result?]
    simp only [code, temps, List.filterMap_append, hargs, hparams, List.range'_1_concat]
    rfl
  | assign x e pos, k => by
    have he := results_code e k
    simp only [code, temps, List.filterMap_append, he, List.filterMap_cons, List.filterMap_nil,
      Instr.result?, List.append_nil]

theorem results_codeAll : ∀ (es : List Expr) (k : Nat),
    (codeAll k es).filterMap Instr.result? = List.range' k (tempsAll es)
  | [], k => rfl
  | e :: es, k => by
    have he := results_code e k
    have hes := results_codeAll es (k + e.temps)
    rw [codeAll, tempsAll, List.filterMap_append, he, hes, List.range'_append_1]

end

end Expr

mutual

/-- The `code` of a statement computes its temporaries in the order of their numbers. -/
theorem Stmt.results_code : ∀ (s : Stmt) (k l : Nat),
    (s.code k l).filterMap Instr.result? = List.range' k s.temps
  | .expr e pos, k, l => e.results_code k
  | .declare t x none pos, k, l => rfl
  | .declare t x (some e) pos, k, l => by
    simp [Stmt.code, Stmt.temps, e.results_code, Instr.result?]
  | .ret none pos, k, l => rfl
  | .ret (some e) pos, k, l => by
    simp [Stmt.code, Stmt.temps, e.results_code, Instr.result?]
  | .ifThen c b pos, k, l => by
    have hb := Block.results_code b (k + c.temps) (l + 1)
    simp only [Stmt.code, Stmt.temps, List.filterMap_append, List.filterMap_cons,
      List.filterMap_nil, Instr.result?, c.results_code, hb, List.append_nil, List.range'_append_1]
  | .ifElse c b a pos, k, l => by
    have hb := Block.results_code b (k + c.temps) (l + 2)
    have ha := Block.results_code a (k + c.temps + b.temps) (l + 2 + b.labels)
    simp only [Stmt.code, Stmt.temps, List.filterMap_append, List.filterMap_cons,
      List.filterMap_nil, Instr.result?, c.results_code, hb, ha, List.append_nil]
    rw [← List.append_assoc, List.range'_append_1, Nat.add_assoc, List.range'_append_1]
  | .loop c b pos, k, l => by
    have hb := Block.results_code b (k + c.temps) (l + 2)
    simp only [Stmt.code, Stmt.temps, List.filterMap_append, List.filterMap_cons,
      List.filterMap_nil, Instr.result?, c.results_code, hb, List.append_nil, List.range'_append_1]

/-- The `code` of a block computes its temporaries in the order of their numbers. -/
theorem Block.results_code : ∀ (b : Block) (k l : Nat),
    (b.code k l).filterMap Instr.result? = List.range' k b.temps
  | .mk ss _, k, l => Stmt.results_codeAll ss k l

theorem Stmt.results_codeAll : ∀ (ss : List Stmt) (k l : Nat),
    (Stmt.codeAll k l ss).filterMap Instr.result? = List.range' k (Stmt.tempsAll ss)
  | [], k, l => rfl
  | s :: ss, k, l => by
    have hs := Stmt.results_code s k l
    have hss := Stmt.results_codeAll ss (k + s.temps) (l + s.labels)
    rw [Stmt.codeAll, Stmt.tempsAll, List.filterMap_append, hs, hss, List.range'_append_1]

end

/-- `codeAll` computes the temporaries of a listing in the order of their numbers, each of them
once. -/
theorem Function.results_codeAll (fs : List Function) (k l : Nat) :
    (Function.codeAll k l fs).filterMap Instr.result? = List.range' k (Function.tempsAll fs) := by
  induction fs generalizing k l with
  | nil => rfl
  | cons f fs ih =>
    simp only [Function.codeAll, Function.code, Function.tempsAll, List.filterMap_append,
      List.filterMap_cons, List.filterMap_nil, Instr.result?, f.body.results_code, ih,
      List.append_nil, List.range'_append_1]

/-! ### Variables -/

namespace Expr

mutual

/-- The variables that the `code` of an expression writes are those that it assigns. -/
theorem mem_assignees_code : ∀ (e : Expr) (k : Nat) (x : String),
    x ∈ (e.code k).filterMap Instr.assignee? ↔ x ∈ e.assigned
  | literal .., k, x => by simp [code, assigned, parts, target?]
  | ident .., k, x => by simp [code, assigned, parts, target?]
  | unary op e pos, k, x => by
    have he := mem_assignees_code e k x
    simp only [code, List.filterMap_append, List.mem_append, he]
    simp [assigned, parts, target?, Instr.assignee?]
  | binary op l r pos, k, x => by
    have hl := mem_assignees_code l k x
    have hr := mem_assignees_code r (k + l.temps) x
    simp only [code, List.filterMap_append, List.mem_append, hl, hr]
    simp [assigned_binary, Instr.assignee?]
  | call f args pos, k, x => by
    have hargs := mem_assignees_codeAll args k x
    simp only [code, List.filterMap_append, List.mem_append, hargs]
    simp [assigned, parts, target?, Instr.assignee?]
  | assign y e pos, k, x => by
    have he := mem_assignees_code e k x
    simp only [code, List.filterMap_append, List.mem_append, he]
    simp [assigned, parts, target?, Instr.assignee?, or_comm]

theorem mem_assignees_codeAll : ∀ (es : List Expr) (k : Nat) (x : String),
    x ∈ (codeAll k es).filterMap Instr.assignee? ↔ x ∈ (partsAll es).filterMap target?
  | [], k, x => by simp [codeAll, partsAll]
  | e :: es, k, x => by
    have he := mem_assignees_code e k x
    have hes := mem_assignees_codeAll es (k + e.temps) x
    simp only [codeAll, partsAll, List.filterMap_append, List.mem_append, he, hes]
    rfl

end

/-- The `code` of an expression writes its temporaries and the variables that it assigns. -/
theorem exists_written_code_iff (e : Expr) (k : Nat) (x : String) :
    (∃ i ∈ e.code k, i.written? = some x) ↔
      (∃ n, k ≤ n ∧ n < k + e.temps ∧ tempName n = x) ∨ x ∈ e.assigned := by
  have hresults := e.results_code k
  constructor
  · rintro ⟨i, hi, hx⟩
    -- an instruction writes a temporary or a variable, and both have been counted
    rcases Instr.written?_eq_some_iff.1 hx with ⟨n, hn, rfl⟩ | hassignee
    · have hmem : n ∈ (e.code k).filterMap Instr.result? := List.mem_filterMap.2 ⟨i, hi, hn⟩
      rw [hresults, List.mem_range'_1] at hmem
      exact .inl ⟨n, hmem.1, hmem.2, rfl⟩
    · exact .inr ((e.mem_assignees_code k x).1 (List.mem_filterMap.2 ⟨i, hi, hassignee⟩))
  · rintro (⟨n, hfirst, hlast, rfl⟩ | hassigned)
    · have hmem : n ∈ (e.code k).filterMap Instr.result? :=
        hresults ▸ List.mem_range'_1.2 ⟨hfirst, hlast⟩
      obtain ⟨i, hi, hn⟩ := List.mem_filterMap.1 hmem
      exact ⟨i, hi, Instr.written?_eq_some_iff.2 (.inl ⟨n, hn, rfl⟩)⟩
    · obtain ⟨i, hi, hx⟩ := List.mem_filterMap.1 ((e.mem_assignees_code k x).2 hassigned)
      exact ⟨i, hi, Instr.written?_eq_some_iff.2 (.inr hx)⟩

end Expr

mutual

/-- The variables that the `code` of a statement writes are those that it declares or assigns. -/
theorem Stmt.mem_assignees_code : ∀ (s : Stmt) (k l : Nat) (x : String),
    x ∈ (s.code k l).filterMap Instr.assignee? ↔
      x ∈ s.declared ∨ x ∈ s.exprs.flatMap Expr.assigned
  | .expr e pos, k, l, x => by simp [Stmt.code, Stmt.declared, Stmt.exprs, e.mem_assignees_code k x]
  | .declare t y none pos, k, l, x => by
    simp [Stmt.code, Stmt.declared, Stmt.exprs, Instr.assignee?, eq_comm]
  | .declare t y (some e) pos, k, l, x => by
    have he := e.mem_assignees_code k x
    simp only [Stmt.code, List.filterMap_append, List.mem_append, he]
    simp [Stmt.declared, Stmt.exprs, Instr.assignee?, or_comm]
  | .ret none pos, k, l, x => by simp [Stmt.code, Stmt.declared, Stmt.exprs, Instr.assignee?]
  | .ret (some e) pos, k, l, x => by
    have he := e.mem_assignees_code k x
    simp only [Stmt.code, List.filterMap_append, List.mem_append, he]
    simp [Stmt.declared, Stmt.exprs, Instr.assignee?]
  | .ifThen c b pos, k, l, x => by
    have hc := c.mem_assignees_code k x
    have hb := Block.mem_assignees_code b (k + c.temps) (l + 1) x
    simp only [Stmt.code, List.filterMap_append, List.filterMap_cons, List.filterMap_nil,
      Instr.assignee?, List.append_nil, List.mem_append, hc, hb, Stmt.declared, Stmt.exprs,
      List.flatMap_cons]
    exact or_left_comm
  | .ifElse c b a pos, k, l, x => by
    have hc := c.mem_assignees_code k x
    have hb := Block.mem_assignees_code b (k + c.temps) (l + 2) x
    have ha := Block.mem_assignees_code a (k + c.temps + b.temps) (l + 2 + b.labels) x
    simp only [Stmt.code, List.filterMap_append, List.filterMap_cons, List.filterMap_nil,
      Instr.assignee?, List.append_nil, List.mem_append, hc, hb, ha, Stmt.declared, Stmt.exprs,
      List.flatMap_cons, List.flatMap_append]
    rw [or_or_or_comm, or_left_comm]
  | .loop c b pos, k, l, x => by
    have hc := c.mem_assignees_code k x
    have hb := Block.mem_assignees_code b (k + c.temps) (l + 2) x
    simp only [Stmt.code, List.filterMap_append, List.filterMap_cons, List.filterMap_nil,
      Instr.assignee?, List.append_nil, List.mem_append, hc, hb, Stmt.declared, Stmt.exprs,
      List.flatMap_cons]
    exact or_left_comm

/-- The variables that the `code` of a block writes are those that it declares or assigns. -/
theorem Block.mem_assignees_code : ∀ (b : Block) (k l : Nat) (x : String),
    x ∈ (b.code k l).filterMap Instr.assignee? ↔
      x ∈ b.declared ∨ x ∈ b.exprs.flatMap Expr.assigned
  | .mk ss _, k, l, x => Stmt.mem_assignees_codeAll ss k l x

theorem Stmt.mem_assignees_codeAll : ∀ (ss : List Stmt) (k l : Nat) (x : String),
    x ∈ (Stmt.codeAll k l ss).filterMap Instr.assignee? ↔
      x ∈ Stmt.declaredAll ss ∨ x ∈ (Stmt.exprsAll ss).flatMap Expr.assigned
  | [], k, l, x => by simp [Stmt.codeAll, Stmt.declaredAll, Stmt.exprsAll]
  | s :: ss, k, l, x => by
    have hs := Stmt.mem_assignees_code s k l x
    have hss := Stmt.mem_assignees_codeAll ss (k + s.temps) (l + s.labels) x
    simp only [Stmt.codeAll, List.filterMap_append, List.mem_append, hs, hss, Stmt.declaredAll,
      Stmt.exprsAll, List.flatMap_append]
    exact or_or_or_comm

end

/-- The variables that a listing writes are those that a function of the program has `written`:
declared or assigned. -/
theorem Function.mem_assignees_codeAll (fs : List Function) (k l : Nat) (x : String) :
    x ∈ (Function.codeAll k l fs).filterMap Instr.assignee? ↔ ∃ f ∈ fs, x ∈ f.written := by
  induction fs generalizing k l with
  | nil => simp [Function.codeAll]
  | cons f fs ih =>
    have hf := f.body.mem_assignees_code k l x
    simp only [Function.codeAll, Function.code, List.filterMap_append, List.filterMap_cons,
      List.filterMap_nil, Instr.assignee?, List.append_nil, List.mem_append, hf, ih,
      List.exists_mem_cons_iff, Function.written]

end Tricode
