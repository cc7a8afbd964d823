import Mathlib.Data.List.DropRight
import Tricode.Proofs.Lexemes
import Tricode.Proofs.Lowering.Writes
import Tricode.Proofs.Typing.Resolution
import Tricode.Proofs.Typing.System

/-!
# What the code of a function may mention

A `Frame` says which variables a function has, which functions it may call, what it returns, and
from which number on its temporaries are counted. `Frame.Admits` says what each instruction may
mention inside the frame, when the next temporary has number `k`.

Code that is made inside a frame is a sequence of instructions, each right behind the arguments that
it takes (`Frame.Makes`). Only calls take arguments. So every argument is taken by one call, and
every call stands right behind its own arguments (`Frame.Makes.passedBefore_eq`,
`Frame.Makes.existsUnique_takes`).

The code of a well-typed statement is made inside the frame of its function (`Frame.makes_code`).
-/

namespace Tricode

namespace Instr

/-- The operands whose values an instruction reads. -/
def reads : Instr → List String
  | copy _ value => [value]
  | jumpUnless cond _ => [cond]
  | ret value => value.toList
  | param value => [value]
  | binary _ left _ right => [left, right]
  | unary _ _ operand => [operand]
  | _ => []

/-- The instruction passes an argument. -/
def isParam : Instr → Bool
  | param _ => true
  | _ => false

/-- The number of arguments that an instruction takes. -/
def arity : Instr → Nat
  | call _ _ count => count
  | _ => 0

/-- The instruction computes the temporary with number `k` if it computes one, and behind it the
next one has number `k'`. -/
def Counts (k k' : Nat) (i : Instr) : Prop :=
  match i.result? with
  | none => k' = k
  | some n => n = k ∧ k' = k + 1

end Instr

/-! ### Arguments and calls -/

/-- The number of arguments that are passed in a row right in front of a place. -/
def passedBefore (code : List Instr) (i : Nat) : Nat :=
  ((code.take i).rtakeWhile Instr.isParam).length

/-- The call at place `i` takes the argument passed at place `j`: it is one of the last instructions
in front of the call, as many as the call takes. -/
def Takes (code : List Instr) (i j : Nat) : Prop :=
  ∃ dest callee count, code[i]? = some (.call dest callee count) ∧ j < i ∧ i ≤ j + count

/-- What is taken from the end of a list does not go beyond an element that fails the test. -/
theorem rtakeWhile_append_cons {α : Type} {p : α → Bool} {a : α} (ha : p a = false)
    (front back : List α) : (front ++ a :: back).rtakeWhile p = back.rtakeWhile p := by
  induction back using List.reverseRecOn with
  | nil => simp [ha]
  | append_singleton back x ih =>
    rw [← List.cons_append, ← List.append_assoc, List.rtakeWhile_concat, List.rtakeWhile_concat, ih]

/-- What `passedBefore` counts right in front of a place is there. -/
theorem exists_param_of_passedBefore {code : List Instr} {i j : Nat} (hj : j < i)
    (hi : i ≤ j + passedBefore code i) (hlength : i ≤ code.length) :
    ∃ x, code[j]? = some (.param x) := by
  obtain ⟨front, hfront⟩ := List.rtakeWhile_suffix Instr.isParam (code.take i)
  have hlengths := congrArg List.length hfront
  rw [List.length_append, List.length_take, Nat.min_eq_left hlength] at hlengths
  rw [passedBefore] at hi
  -- the place lies in the row of arguments
  obtain ⟨found, hfound⟩ : ∃ found, ((code.take i).rtakeWhile Instr.isParam)[j - front.length]? =
      some found := by
    exact ⟨_, List.getElem?_eq_getElem (by omega)⟩
  have hparam : found.isParam = true := List.mem_rtakeWhile_imp (List.mem_of_getElem? hfound)
  have hcode : code[j]? = some found := by
    rw [← List.getElem?_take_of_lt hj, ← hfront, List.getElem?_append_right (by omega), hfound]
  cases found with
  | param x => exact ⟨x, hcode⟩
  | _ => cases hparam

/-- A place in `front ++ a :: back` is in `front`, at `a`, or in `back`. -/
theorem getElem?_append_cons {α : Type} {front back : List α} {a found : α} {n : Nat}
    (h : (front ++ a :: back)[n]? = some found) :
    (n < front.length ∧ found ∈ front) ∨ (n = front.length ∧ found = a) ∨
      ∃ m, n = front.length + 1 + m ∧ back[m]? = some found := by
  rw [List.getElem?_append] at h
  split at h
  · next hn => exact .inl ⟨hn, List.mem_of_getElem? h⟩
  · next hn =>
    -- behind `front`, the distance from its end tells which
    cases hm : n - front.length with
    | zero =>
      rw [hm, List.getElem?_cons_zero, Option.some.injEq] at h
      exact .inr (.inl ⟨by omega, h.symm⟩)
    | succ m =>
      rw [hm, List.getElem?_cons_succ] at h
      exact .inr (.inr ⟨m, by omega, h⟩)

theorem getElem?_length_add {α : Type} (front back : List α) (a : α) (m : Nat) :
    (front ++ a :: back)[front.length + 1 + m]? = back[m]? := by
  rw [List.getElem?_append_right (by omega), Nat.add_assoc, Nat.add_sub_cancel_left, Nat.add_comm 1,
    List.getElem?_cons_succ]

theorem take_length_add {α : Type} (front back : List α) (a : α) (m : Nat) :
    (front ++ a :: back).take (front.length + 1 + m) = front ++ a :: back.take m := by
  rw [Nat.add_assoc, List.take_length_add_append, Nat.add_comm 1, List.take_succ_cons]

/-! ### Frames -/

/-- What is known of a function while its code is made. -/
structure Frame where
  /-- The parameters and the local variables. -/
  vars : List String
  /-- The functions that may be called. -/
  fs : List Function
  result : Ty
  /-- The number of the first temporary. -/
  first : Nat

namespace Frame

/-- The operand can be read where the next temporary has number `k`. -/
def Readable (F : Frame) (k : Nat) (x : String) : Prop :=
  (literalKind? x).isSome = true ∨ x ∈ F.vars ∨ ∃ n, F.first ≤ n ∧ n < k ∧ x = tempName n

/-- There is a function of the name and with so many parameters. -/
def Callable (F : Frame) (name : String) (count : Nat) : Prop :=
  ∃ f ∈ F.fs, f.name = name ∧ f.params.length = count

/-- The instruction mentions nothing but what it may, where the next temporary has number `k`. -/
def Admits (F : Frame) (k : Nat) : Instr → Prop
  | .copy x value => x ∈ F.vars ∧ F.Readable k value
  | .declare x => x ∈ F.vars
  | .jumpUnless cond _ => F.Readable k cond
  | .ret (some value) => F.Readable k value
  | .ret none => F.result = .void
  | .param value => F.Readable k value
  | .binary _ left _ right => F.Readable k left ∧ F.Readable k right
  | .unary _ _ operand => F.Readable k operand
  | .call _ name count => F.Callable name count
  | _ => True

/-- Code is a sequence of instructions, each right behind the arguments that it takes. In front of
the code the next temporary has number `k`, and behind it number `k'`. -/
inductive Makes (F : Frame) : (k : Nat) → List Instr → (k' : Nat) → Prop where
  | nil {k : Nat} : F.Makes k [] k
  | step {k k₁ k' : Nat} {args : List String} {i : Instr} {code : List Instr}
    (hargs : ∀ a ∈ args, F.Readable k a) (hi : F.Admits k i) (hparam : i.isParam = false)
    (harity : i.arity = args.length) (hcounts : i.Counts k k₁) (rest : F.Makes k₁ code k') :
    F.Makes k (args.map .param ++ i :: code) k'

variable {F : Frame} {k k' : Nat}

/-- What is `Readable` stays so when more temporaries are computed. -/
theorem Readable.mono {x : String} (h : F.Readable k x) (hk : k ≤ k') : F.Readable k' x := by
  rcases h with h | h | ⟨n, hfirst, hn, rfl⟩
  · exact .inl h
  · exact .inr (.inl h)
  · exact .inr (.inr ⟨n, hfirst, by omega, rfl⟩)

/-- A temporary that was drawn in the frame is `Readable`. -/
theorem readable_tempName {n : Nat} (hfirst : F.first ≤ n) (hn : n < k) :
    F.Readable k (tempName n) :=
  .inr (.inr ⟨n, hfirst, hn, rfl⟩)

/-- What an admitted instruction reads is `Readable`. -/
theorem Admits.readable {i : Instr} (h : F.Admits k i) : ∀ x ∈ i.reads, F.Readable k x := by
  cases i with
  | copy x value => exact List.forall_mem_singleton.2 h.2
  | binary dest left op right =>
    exact List.forall_mem_cons.2 ⟨h.1, List.forall_mem_singleton.2 h.2⟩
  | ret value =>
    cases value with
    | none => simp [Instr.reads]
    | some value => exact List.forall_mem_singleton.2 h
  | jumpUnless | param | unary => exact List.forall_mem_singleton.2 h
  | _ => simp [Instr.reads]

/-- What an instruction that a frame `Admits` assigns to is a variable of the frame. -/
theorem Admits.mem_vars {i : Instr} (h : F.Admits k i) {x : String} (hx : x ∈ i.assignee?) :
    x ∈ F.vars := by
  cases i with
  | copy dest value => exact Option.some.inj hx ▸ h.1
  | declare y => exact Option.some.inj hx ▸ h
  | _ => cases hx

namespace Makes

/-- A frame `Makes` an instruction that takes no arguments. -/
theorem cons {k₁ : Nat} {i : Instr} {code : List Instr} (hi : F.Admits k i)
    (hparam : i.isParam = false)
    (harity : i.arity = 0) (hcounts : i.Counts k k₁) (rest : F.Makes k₁ code k') :
    F.Makes k (i :: code) k' := by
  have hargs : ∀ a ∈ ([] : List String), F.Readable k a := by simp
  exact .step hargs hi hparam harity hcounts rest

/-- Code that a frame `Makes`, followed by `code` that it makes from there. -/
theorem append {k'' : Nat} {code code' : List Instr} (h : F.Makes k code k')
    (h' : F.Makes k' code' k'') :
    F.Makes k (code ++ code') k'' := by
  induction h with
  | nil => exact h'
  | step hargs hi hparam harity hcounts _ ih =>
    rw [List.append_assoc, List.cons_append]
    exact .step hargs hi hparam harity hcounts (ih h')

variable {code : List Instr}

/-- In code that a frame `Makes`, each instruction mentions what it may, and the temporaries that it
may read are computed in front of it. -/
theorem exists_admits (h : F.Makes k code k') {j : Nat} {i : Instr} (hi : code[j]? = some i) :
    ∃ n, F.Admits n i ∧ ∀ m, k ≤ m → m < n → m ∈ (code.take j).filterMap Instr.result? := by
  induction h generalizing j with
  | nil => simp at hi
  | @step k k₁ k' args instr code hargs hinstr hparam harity hcounts _ ih =>
    rcases getElem?_append_cons hi with ⟨-, hmem⟩ | ⟨-, rfl⟩ | ⟨n, rfl, hn⟩
    · obtain ⟨a, ha, rfl⟩ := List.mem_map.1 hmem
      exact ⟨k, hargs a ha, fun m hm hm' => by omega⟩
    · exact ⟨k, hinstr, fun m hm hm' => by omega⟩
    · obtain ⟨n, hadmits, hcomputed⟩ := ih hn
      refine ⟨n, hadmits, fun m hm hm' => ?_⟩
      rw [take_length_add, List.filterMap_append, List.mem_append]
      right
      -- the first of the temporaries is computed by the first instruction, if it computes one
      unfold Instr.Counts at hcounts
      cases hresult : instr.result? with
      | none =>
        rw [hresult] at hcounts
        rw [List.filterMap_cons_none hresult]
        exact hcomputed m (by omega) hm'
      | some first =>
        rw [hresult] at hcounts
        rw [List.filterMap_cons_some hresult, List.mem_cons]
        by_cases hfirst : m = first
        · exact .inl hfirst
        · exact .inr (hcomputed m (by omega) hm')

/-- In code that a frame `Makes`, an instruction stands right behind the arguments that it takes,
and behind no others. -/
theorem passedBefore_eq (h : F.Makes k code k') {j : Nat} {i : Instr} (hi : code[j]? = some i)
    (hparam : i.isParam = false) : passedBefore code j = i.arity := by
  induction h generalizing j with
  | nil => simp at hi
  | @step k k₁ k' args instr code hargs hinstr hparam' harity hcounts _ ih =>
    -- the instruction is an argument, the one that takes them, or one behind it
    rcases getElem?_append_cons hi with ⟨-, hmem⟩ | ⟨rfl, rfl⟩ | ⟨n, rfl, hn⟩
    · obtain ⟨a, -, rfl⟩ := List.mem_map.1 hmem
      cases hparam
    · have hall : (args.map Instr.param).rtakeWhile Instr.isParam = args.map Instr.param := by
        rw [List.rtakeWhile_eq_self_iff]
        simp [Instr.isParam]
      rw [passedBefore, List.take_left, hall, harity, List.length_map]
    · rw [passedBefore, take_length_add, rtakeWhile_append_cons hparam']
      exact ih hn

/-- Only a call takes arguments. -/
theorem exists_call_of_arity {i : Instr} (h : i.arity ≠ 0) :
    ∃ dest callee, i = .call dest callee i.arity := by
  cases i with
  | call dest callee count => exact ⟨dest, callee, rfl⟩
  | _ => exact absurd rfl h

/-- In code that a frame `Makes`, every argument is taken. -/
theorem exists_takes (h : F.Makes k code k') {j : Nat} {x : String}
    (hj : code[j]? = some (.param x)) :
    ∃ i, Takes code i j := by
  induction h generalizing j with
  | nil => simp at hj
  | @step k k₁ k' args instr code hargs hinstr hparam harity hcounts _ ih =>
    rcases getElem?_append_cons hj with ⟨hlt, -⟩ | ⟨-, rfl⟩ | ⟨n, rfl, hn⟩
    · -- the argument is one of those in front of the first instruction
      rw [List.length_map] at hlt
      obtain ⟨dest, callee, hcall⟩ := exists_call_of_arity (i := instr) (by omega)
      refine ⟨args.length, dest, callee, instr.arity, ?_, hlt, by omega⟩
      rw [← hcall, List.getElem?_append_right (by simp), List.length_map, Nat.sub_self]
      rfl
    · cases hparam
    -- the argument stands in the rest of the code, and so does its call
    · obtain ⟨i, dest, callee, count, hi, hni, hin⟩ := ih hn
      refine ⟨(args.map Instr.param).length + 1 + i, dest, callee, count, ?_, by omega, by omega⟩
      rw [getElem?_length_add, hi]

/-- In code that a frame `Makes`, exactly one call `Takes` an argument. -/
theorem existsUnique_takes (h : F.Makes k code k') {j : Nat} {x : String}
    (hj : code[j]? = some (.param x)) : ∃! i, Takes code i j := by
  -- a call that takes an argument takes all instructions from there on, so no call stands in
  -- between
  have hle : ∀ i i', Takes code i j → Takes code i' j → i ≤ i' := by
    intro i i' hi hi'
    obtain ⟨dest, callee, count, hcall, hji, hij⟩ := hi
    obtain ⟨dest', callee', count', hcall', hji', hij'⟩ := hi'
    by_contra hlt
    have hpassed : passedBefore code i = count := h.passedBefore_eq hcall rfl
    have hlength : i < code.length := (List.getElem?_eq_some_iff.1 hcall).1
    obtain ⟨y, hy⟩ : ∃ y, code[i']? = some (.param y) :=
      exists_param_of_passedBefore (i := i) (by omega) (by omega) (by omega)
    rw [hcall'] at hy
    cases hy
  obtain ⟨i, hi⟩ := h.exists_takes hj
  exact ⟨i, hi, fun i' hi' => Nat.le_antisymm (hle i' i hi' hi) (hle i i' hi hi')⟩

end Makes

/-! ### Expressions -/

/-- The expression itself mentions nothing but what it may. -/
def Supports (F : Frame) : Expr → Prop
  | .literal kind text _ => literalKind? text = some kind
  | .ident x _ => x ∈ F.vars
  | .call f args _ => F.Callable f.callee args.length
  | .assign x _ _ => x ∈ F.vars
  | _ => True

mutual

/-- An expression all of whose parts mention what they may: its `code` does so too, and what holds
its value can be read behind the code. -/
theorem makes_exprCode : ∀ (e : Expr) (k : Nat), F.first ≤ k → (∀ part ∈ e.parts, F.Supports part) →
    F.Makes k (e.code k) (k + e.temps) ∧ F.Readable (k + e.temps) (e.operand k)
  | .literal kind text pos, k, hfirst, h => by
    have htext : literalKind? text = some kind := h _ (Expr.self_mem_parts _)
    exact ⟨.nil, .inl (by simp [Expr.operand, htext])⟩
  | .ident x pos, k, hfirst, h => ⟨.nil, .inr (.inl (h _ (Expr.self_mem_parts _)))⟩
  | .unary op e pos, k, hfirst, h => by
    obtain ⟨-, he⟩ := List.forall_mem_cons.1 h
    obtain ⟨hcode, hoperand⟩ := makes_exprCode e k hfirst he
    refine ⟨hcode.append (.cons hoperand rfl rfl ⟨rfl, rfl⟩ .nil), readable_tempName (by omega) ?_⟩
    rw [Expr.temps]
    omega
  | .binary op l r pos, k, hfirst, h => by
    obtain ⟨-, hparts⟩ := List.forall_mem_cons.1 h
    obtain ⟨hl, hr⟩ := List.forall_mem_append.1 hparts
    obtain ⟨hcode, hoperand⟩ := makes_exprCode l k hfirst hl
    obtain ⟨hcode', hoperand'⟩ := makes_exprCode r (k + l.temps) (by omega) hr
    have hcounter : k + (Expr.binary op l r pos).temps = k + l.temps + r.temps + 1 := by
      rw [Expr.temps]
      omega
    rw [hcounter]
    refine ⟨?_, readable_tempName (by omega) (Nat.lt_succ_self _)⟩
    -- the left operand is still readable behind the code of the right one
    have hleft := hoperand.mono (Nat.le_add_right (k + l.temps) r.temps)
    exact hcode.append (hcode'.append (.cons ⟨hleft, hoperand'⟩ rfl rfl ⟨rfl, rfl⟩ .nil))
  | .call f args pos, k, hfirst, h => by
    obtain ⟨hcallable, hargs⟩ := List.forall_mem_cons.1 h
    obtain ⟨hcode, hoperands⟩ := makes_exprCodeAll args k hfirst hargs
    refine ⟨hcode.append (.step hoperands ?_ rfl rfl ⟨rfl, rfl⟩ .nil),
      readable_tempName (by omega) ?_⟩
    · rw [Expr.length_operands]
      -- as many operands are passed as there are arguments
      exact hcallable
    · rw [Expr.temps]
      omega
  | .assign x e pos, k, hfirst, h => by
    obtain ⟨hx, he⟩ := List.forall_mem_cons.1 h
    obtain ⟨hcode, hoperand⟩ := makes_exprCode e k hfirst he
    exact ⟨hcode.append (.cons ⟨hx, hoperand⟩ rfl rfl rfl .nil), .inr (.inl hx)⟩

theorem makes_exprCodeAll : ∀ (es : List Expr) (k : Nat), F.first ≤ k →
    (∀ part ∈ Expr.partsAll es, F.Supports part) →
    F.Makes k (Expr.codeAll k es) (k + Expr.tempsAll es) ∧
      ∀ x ∈ Expr.operands k es, F.Readable (k + Expr.tempsAll es) x
  | [], k, _, _ => ⟨.nil, by simp [Expr.operands]⟩
  | e :: es, k, hfirst, h => by
    obtain ⟨he, hes⟩ := List.forall_mem_append.1 h
    obtain ⟨hcode, hoperand⟩ := makes_exprCode e k hfirst he
    obtain ⟨hcode', hoperands⟩ := makes_exprCodeAll es (k + e.temps) (by omega) hes
    rw [Expr.tempsAll, ← Nat.add_assoc]
    exact ⟨hcode.append hcode',
      List.forall_mem_cons.2 ⟨hoperand.mono (Nat.le_add_right _ _), hoperands⟩⟩

end

/-! ### Statements -/

/-- A frame `Supports` the parts of a typed expression, if its variables are those of the frame and
its literals are spelled like literals. -/
theorem supports_of_hasType {vars : List (String × Ty)} {e : Expr} {t : Ty}
    (ht : HasType F.fs vars e t) (hresolved : e.Resolved F.vars) (hliterals : e.LiteralsSpelled) :
    ∀ part ∈ e.parts, F.Supports part := by
  intro part hpart
  have hholder := (hresolved part hpart).2
  have hliteral := hliterals part hpart
  obtain ⟨u, hu⟩ := ht.exists_of_mem_parts e hpart
  cases part with
  | literal kind text pos => exact hliteral
  | ident x pos => exact hholder x rfl
  | assign x e pos => exact hholder x rfl
  | call f args pos =>
    -- only a call needs its type: the callee takes as many arguments as there are
    cases hu with
    | @call f args types p pos hf hvisible arguments hfits =>
      refine ⟨f, hf, rfl, ?_⟩
      rw [arguments.length_eq, ← hfits.length_eq, List.length_map]
  | _ => trivial

/-- The variables of an expression are those of the frame, and its literals are spelled like
literals. -/
def Spells (F : Frame) (e : Expr) : Prop :=
  e.Resolved F.vars ∧ e.LiteralsSpelled

/-- The `code` of a typed expression is made in the frame. -/
theorem makes_of_hasType {vars : List (String × Ty)} {e : Expr} {t : Ty}
    (ht : HasType F.fs vars e t) (he : F.Spells e) (hfirst : F.first ≤ k) :
    F.Makes k (e.code k) (k + e.temps) ∧ F.Readable (k + e.temps) (e.operand k) :=
  makes_exprCode e k hfirst (supports_of_hasType ht he.1 he.2)

mutual

/-- The `code` of a well-typed statement mentions nothing but what it may. -/
theorem makes_code : ∀ (s : Stmt) (k l : Nat) {vars : List (String × Ty)}, F.first ≤ k →
    StmtTyped F.fs F.result vars s → (∀ e ∈ s.exprs, F.Spells e) → (∀ x ∈ s.declared, x ∈ F.vars) →
    F.Makes k (s.code k l) (k + s.temps)
  | .expr e pos, k, l, vars, hfirst, h, hexprs, _ => by
    cases h with
    | expr he => exact (makes_of_hasType he (hexprs e (by simp [Stmt.exprs])) hfirst).1
  | .declare t x none pos, k, l, vars, _, _, _, hdeclared =>
    .cons (hdeclared x (by simp [Stmt.declared])) rfl rfl rfl .nil
  | .declare t x (some e) pos, k, l, vars, hfirst, h, hexprs, hdeclared => by
    cases h with
    | init he =>
      obtain ⟨hcode, hoperand⟩ := makes_of_hasType he (hexprs e (by simp [Stmt.exprs])) hfirst
      have hx : x ∈ F.vars := hdeclared x (by simp [Stmt.declared])
      exact hcode.append (.cons ⟨hx, hoperand⟩ rfl rfl rfl .nil)
  | .ifThen c b pos, k, l, vars, hfirst, h, hexprs, hdeclared => by
    obtain ⟨hc, hb⟩ := List.forall_mem_cons.1 hexprs
    cases h with
    | ifThen cond body =>
      obtain ⟨hcode, hoperand⟩ := makes_of_hasType cond hc hfirst
      have hbody := makes_blockCode b (k + c.temps) (l + 1) (by omega) body hb hdeclared
      rw [Stmt.temps, ← Nat.add_assoc]
      exact hcode.append
        (.cons hoperand rfl rfl rfl (hbody.append (.cons trivial rfl rfl rfl .nil)))
  | .ifElse c b a pos, k, l, vars, hfirst, h, hexprs, hdeclared => by
    obtain ⟨hc, hblocks⟩ := List.forall_mem_cons.1 hexprs
    obtain ⟨hb, ha⟩ := List.forall_mem_append.1 hblocks
    obtain ⟨hdeclared, hdeclared'⟩ := List.forall_mem_append.1 hdeclared
    cases h with
    | ifElse cond body alternative =>
      obtain ⟨hcode, hoperand⟩ := makes_of_hasType cond hc hfirst
      have hbody := makes_blockCode b (k + c.temps) (l + 2) (by omega) body hb hdeclared
      have halternative := makes_blockCode a (k + c.temps + b.temps) (l + 2 + b.labels) (by omega)
        alternative ha hdeclared'
      rw [Stmt.temps, ← Nat.add_assoc, ← Nat.add_assoc]
      refine hcode.append (.cons hoperand rfl rfl rfl (hbody.append ?_))
      refine .cons trivial rfl rfl rfl (.cons trivial rfl rfl rfl (halternative.append ?_))
      exact .cons trivial rfl rfl rfl .nil
  | .loop c b pos, k, l, vars, hfirst, h, hexprs, hdeclared => by
    obtain ⟨hc, hb⟩ := List.forall_mem_cons.1 hexprs
    cases h with
    | loop cond body =>
      obtain ⟨hcode, hoperand⟩ := makes_of_hasType cond hc hfirst
      have hbody := makes_blockCode b (k + c.temps) (l + 2) (by omega) body hb hdeclared
      rw [Stmt.temps, ← Nat.add_assoc]
      refine .cons trivial rfl rfl rfl (hcode.append (.cons hoperand rfl rfl rfl (hbody.append ?_)))
      -- labels and jumps mention no names
      exact .cons trivial rfl rfl rfl (.cons trivial rfl rfl rfl .nil)
  | .ret none pos, k, l, vars, _, h, _, _ => by
    cases h with
    | ret hresult => exact .cons hresult rfl rfl rfl .nil
  | .ret (some e) pos, k, l, vars, hfirst, h, hexprs, _ => by
    cases h with
    | retValue he =>
      obtain ⟨hcode, hoperand⟩ := makes_of_hasType he (hexprs e (by simp [Stmt.exprs])) hfirst
      exact hcode.append (.cons hoperand rfl rfl rfl .nil)

/-- The `code` of a well-typed block mentions nothing but what it may. -/
theorem makes_blockCode : ∀ (b : Block) (k l : Nat) {vars : List (String × Ty)}, F.first ≤ k →
    BlockTyped F.fs F.result vars b → (∀ e ∈ b.exprs, F.Spells e) → (∀ x ∈ b.declared, x ∈ F.vars) →
    F.Makes k (b.code k l) (k + b.temps)
  | .mk ss pos, k, l, vars, hfirst, h, hexprs, hdeclared => by
    cases h with
    | mk inner => exact makes_codeAll ss k l hfirst inner hexprs hdeclared

/-- A frame `Makes` the code of well-typed statements. -/
theorem makes_codeAll : ∀ (ss : List Stmt) (k l : Nat) {vars : List (String × Ty)}, F.first ≤ k →
    StmtsTyped F.fs F.result vars ss → (∀ e ∈ Stmt.exprsAll ss, F.Spells e) →
    (∀ x ∈ Stmt.declaredAll ss, x ∈ F.vars) →
    F.Makes k (Stmt.codeAll k l ss) (k + Stmt.tempsAll ss)
  | [], k, l, vars, _, _, _, _ => .nil
  | s :: ss, k, l, vars, hfirst, h, hexprs, hdeclared => by
    obtain ⟨hs, hss⟩ := List.forall_mem_append.1 hexprs
    obtain ⟨hdeclared, hdeclared'⟩ := List.forall_mem_append.1 hdeclared
    cases h with
    | cons head tail =>
      have hcode := makes_code s k l hfirst head hs hdeclared
      have hcode' := makes_codeAll ss (k + s.temps) (l + s.labels) (by omega) tail hss hdeclared'
      rw [Stmt.tempsAll, ← Nat.add_assoc]
      exact hcode.append hcode'

end

end Frame

end Tricode
