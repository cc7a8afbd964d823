import Mathlib.Data.List.Nodup
import Tricode.Proofs.Typing.Resolution
import Tricode.Proofs.Typing.System

/-!
# Types found in silence

The checker types an expression under a symbol table, and after a finding it goes on with some type
or with `unknown`. Here its silent runs are read off step by step: under a table that agrees with
the functions and the variables in scope (`Agrees`), it gives a type in silence exactly if the
expression has that type (`infer_yields_iff`).

This needs that no variable and no function has the type `unknown`, for then no silence is bought by
it.
-/

namespace Tricode

/-! ### Types -/

/-- The check for numbers finds the `Numeric` types. -/
theorem isNumeric_eq_true_iff {t : Ty} : t.isNumeric = true ↔ Numeric t := by
  simp only [Ty.isNumeric, Bool.or_eq_true, beq_iff_eq]
  constructor
  · rintro (rfl | rfl)
    · exact .int
    · exact .float
  · rintro (_ | _) <;> simp

/-- The check for `compatible` types finds those that fit. -/
theorem compatible_eq_true_iff {t u : Ty} : t.compatible u = true ↔ Fits t u := by
  rw [Ty.compatible_iff]
  constructor
  · rintro (rfl | ⟨rfl, rfl⟩)
    · exact .same
    · exact .widened
  · rintro (_ | _)
    · exact .inl rfl
    · exact .inr ⟨rfl, rfl⟩

theorem comparable_iff {t u : Ty} : Comparable t u ↔ Fits t u ∨ Fits u t := by
  constructor
  · rintro (_ | _ | _)
    · exact .inl .same
    · exact .inr .widened
    · exact .inl .widened
  · rintro ((_ | _) | (_ | _))
    · exact .same
    · exact .floatInt
    · exact .same
    · exact .intFloat

/-- Where nothing is unknown, what is `assignable` is what `Fits`. -/
theorem assignable_eq_true_iff {t u : Ty} (ht : t ≠ .unknown) (hu : u ≠ .unknown) :
    t.assignable u = true ↔ Fits t u := by
  simp only [Ty.assignable, Bool.or_eq_true, beq_iff_eq, ht, hu, false_or, compatible_eq_true_iff]

theorem arithmetic_eq (t u : Ty) :
    t.arithmetic u = if t = .float ∨ u = .float then .float else .int := by
  simp [Ty.arithmetic]

theorem Numeric.ne_unknown {t : Ty} (h : Numeric t) : t ≠ .unknown := by
  cases h <;> decide

namespace Typing

open Pass

/-! ### Tables that agree with a scope -/

/-- The global scope holds the functions, each under its name and with its signature. -/
structure Globals (fs : List Function) (globals : Scope) : Prop where
  entries : globals.symbols.map (fun s => (s.name, s.signature?)) =
    fs.map fun f => (f.name, some ⟨f.params, f.result⟩)
  nodup : (fs.map Function.name).Nodup
  results : ∀ f ∈ fs, f.result ≠ .unknown
  params : ∀ f ∈ fs, ∀ p ∈ f.params, p.type ≠ .unknown

/-- The current scope of the table holds the variables, each under its name and with its type, below
a global scope that holds the functions. -/
structure Agrees (fs : List Function) (vars : List (String × Ty)) (table : SymbolTable) : Prop where
  globals : Globals fs table.globals
  current : table.current ≠ SymbolTable.globalName
  scope : ∃ scope, table.currentScope = .ok scope ∧
    scope.symbols.map (fun s => (s.name, s.type, s.signature?)) = vars.map fun v => (v.1, v.2, none)
  nodup : (vars.map Prod.fst).Nodup
  known : ∀ v ∈ vars, v.2 ≠ .unknown

variable {fs : List Function} {vars : List (String × Ty)} {table : SymbolTable}

theorem Agrees.eq_of_mem (h : Agrees fs vars table) {x : String} {t u : Ty} (ht : (x, t) ∈ vars)
    (hu : (x, u) ∈ vars) : t = u :=
  (Prod.mk.inj (List.inj_on_of_nodup_map h.nodup ht hu rfl)).2

/-- `lookup` finds a name as a variable, or else as a function, or else not at all. -/
theorem Agrees.lookup_cases (h : Agrees fs vars table) (x : String) :
    (∃ s, table.lookup x = .ok (some s) ∧ s.signature? = none ∧ (x, s.type) ∈ vars) ∨
      (∀ t, (x, t) ∉ vars) ∧
        ((∃ s, ∃ f ∈ fs, table.lookup x = .ok (some s) ∧ s.name = x ∧ f.name = x ∧
          s.signature? = some ⟨f.params, f.result⟩) ∨
        table.lookup x = .ok none ∧ ∀ f ∈ fs, f.name ≠ x) := by
  obtain ⟨scope, hscope, hentries⟩ := h.scope
  have hlookup : table.lookup x = .ok ((scope.find? x).or (table.globals.find? x)) := by
    rw [SymbolTable.lookup, hscope]
    rfl
  -- the current scope is looked at first, so a variable hides a function of its name
  cases hlocal : scope.find? x with
  | some s =>
    left
    rw [hlocal, Option.some_or] at hlookup
    have hname : s.name = x := by simpa using List.find?_some hlocal
    have hmem : (s.name, s.type, s.signature?) ∈ vars.map fun v => (v.1, v.2, none) := by
      rw [← hentries]
      exact List.mem_map_of_mem (List.mem_of_find?_eq_some hlocal)
    obtain ⟨v, hv, hs⟩ := List.mem_map.1 hmem
    simp only [Prod.mk.injEq] at hs
    obtain ⟨hv₁, hv₂, hsignature⟩ := hs
    refine ⟨s, hlookup, hsignature.symm, ?_⟩
    rw [← hname, ← hv₁, ← hv₂]
    exact hv
  | none =>
    right
    rw [hlocal, Option.none_or] at hlookup
    have hnone := List.find?_eq_none.1 hlocal
    constructor
    · intro t ht
      have hmem : (x, t, none) ∈ scope.symbols.map fun s => (s.name, s.type, s.signature?) := by
        rw [hentries]
        exact List.mem_map.2 ⟨(x, t), ht, rfl⟩
      obtain ⟨s, hs, heq⟩ := List.mem_map.1 hmem
      exact hnone s hs (by simpa using (Prod.mk.inj heq).1)
    · cases hglobal : table.globals.find? x with
      | some s =>
        left
        rw [hglobal] at hlookup
        have hname : s.name = x := by simpa using List.find?_some hglobal
        have hmem : (s.name, s.signature?) ∈ fs.map fun f =>
            (f.name, some ⟨f.params, f.result⟩) := by
          rw [← h.globals.entries]
          exact List.mem_map_of_mem (List.mem_of_find?_eq_some hglobal)
        obtain ⟨f, hf, heq⟩ := List.mem_map.1 hmem
        obtain ⟨hfname, hsignature⟩ := Prod.mk.inj heq
        exact ⟨s, f, hf, hlookup, hname, hfname.trans hname, hsignature.symm⟩
      | none =>
        right
        rw [hglobal] at hlookup
        refine ⟨hlookup, fun f hf hname => ?_⟩
        have hmem : (f.name, some ⟨f.params, f.result⟩) ∈
            table.globals.symbols.map fun s => (s.name, s.signature?) := by
          rw [h.globals.entries]
          exact List.mem_map.2 ⟨f, hf, rfl⟩
        obtain ⟨s, hs, heq⟩ := List.mem_map.1 hmem
        exact List.find?_eq_none.1 hglobal s hs (by simpa [hname] using (Prod.mk.inj heq).1)

/-- An expression that has a type is not unknown. -/
theorem Agrees.ne_unknown (h : Agrees fs vars table) {e : Expr} {t : Ty}
    (he : HasType fs vars e t) :
    t ≠ .unknown := by
  cases he with
  | int | float | bool | not | equality | order | logical => decide
  | var hx => exact h.known _ hx
  | minus _ ht => exact ht.ne_unknown
  | arithmetic => split <;> decide
  | call hf => exact h.globals.results _ hf
  | assign hx => exact h.known _ hx

/-! ### Steps in silence -/

variable {σ ε : Type}

theorem require_yields_iff {holds : Bool} {cause : TypingCause} {pos : Pos} {s s' : σ} {u : Unit} :
    (require holds cause pos : Pass σ (Finding TypingCause) ε Unit).Yields s u s' ↔
      holds = true ∧ s' = s := by
  cases holds with
  | true => simp [require, yields_pure_iff]
  | false => simp [require, report, not_yields_write]

theorem not_report_bind_yields {α : Type} {cause : TypingCause} {pos : Pos} {s s' : σ} {a : α}
    {f : Unit → Pass σ (Finding TypingCause) ε α} : ¬ (report cause pos >>= f).Yields s a s' := by
  intro h
  obtain ⟨_, _, hreport, -⟩ := yields_bind_iff.1 h
  exact not_yields_write hreport

/-- A check that gives a type. -/
theorem require_pure_yields_iff {holds : Bool} {cause : TypingCause} {pos : Pos} {t u : Ty} :
    (require holds cause pos >>= fun _ => pure t : Inference Ty).Yields () u () ↔
      holds = true ∧ u = t := by
  rw [yields_bind_iff]
  simp only [require_yields_iff, yields_pure_iff, exists_and_left, exists_const, and_true]

/-- Inference has no state, so a sequence only hands on its value. -/
theorem inference_bind_yields_iff {α β : Type} {m : Inference α} {f : α → Inference β} {b : β} :
    (m >>= f).Yields () b () ↔ ∃ a, m.Yields () a () ∧ (f a).Yields () b () := by
  rw [yields_bind_iff]
  exact ⟨fun ⟨a, (), h⟩ => ⟨a, h⟩, fun ⟨a, h⟩ => ⟨a, (), h⟩⟩

/-- `unaryType` passes in silence exactly if the operation has a type. -/
theorem unaryType_yields_iff {op : String} {t u : Ty} {pos : Pos} (ht : t ≠ .unknown) :
    (unaryType op t pos).Yields () u () ↔
      op = "-" ∧ Numeric t ∧ u = t ∨ op = "!" ∧ t = .bool ∧ u = .bool := by
  unfold unaryType
  by_cases hminus : op = "-"
  · simp [-bind_pure_comp, hminus, require_pure_yields_iff, ht, isNumeric_eq_true_iff]
  by_cases hnot : op = "!"
  · simp [-bind_pure_comp, hnot, require_pure_yields_iff, ht]
  · simp [-bind_pure_comp, hminus, hnot, not_report_bind_yields]

/-- `binaryType` passes in silence in four cases, since the kinds of operators have none in
common. -/
theorem binaryType_yields_iff {op : String} {t u v : Ty} {pos : Pos} (ht : t ≠ .unknown)
    (hu : u ≠ .unknown) :
    (binaryType op t u pos).Yields () v () ↔
      op ∈ arithmeticOps ∧ (Numeric t ∧ Numeric u) ∧ v = t.arithmetic u ∨
      op ∈ equalityOps ∧ Comparable t u ∧ v = .bool ∨
      op ∈ orderOps ∧ (Numeric t ∧ Numeric u) ∧ v = .bool ∨
      op ∈ logicalOps ∧ (t = .bool ∧ u = .bool) ∧ v = .bool := by
  -- no operand is unknown, so every check counts
  have hunresolved : (t == .unknown || u == .unknown) = false := by simp [ht, hu]
  simp only [binaryType, hunresolved, List.contains_iff_mem, Bool.false_or]
  by_cases harithmetic : op ∈ arithmeticOps
  · have hothers : op ∉ equalityOps ∧ op ∉ orderOps ∧ op ∉ logicalOps := by
      revert op
      decide
    simp [-bind_pure_comp, harithmetic, hothers, require_pure_yields_iff, isNumeric_eq_true_iff]
  by_cases hequality : op ∈ equalityOps
  · have hothers : op ∉ orderOps ∧ op ∉ logicalOps := by
      clear harithmetic
      revert op
      decide
    simp [-bind_pure_comp, harithmetic, hequality, hothers, require_pure_yields_iff,
      compatible_eq_true_iff, comparable_iff]
  by_cases horder : op ∈ orderOps
  · have hothers : op ∉ logicalOps := by
      clear harithmetic hequality
      revert op
      decide
    simp [-bind_pure_comp, harithmetic, hequality, horder, hothers, require_pure_yields_iff,
      isNumeric_eq_true_iff]
  by_cases hlogical : op ∈ logicalOps
  · simp [-bind_pure_comp, harithmetic, hequality, horder, hlogical, require_pure_yields_iff]
  · simp [-bind_pure_comp, harithmetic, hequality, horder, hlogical, not_report_bind_yields]

/-- `checkArguments` passes in silence exactly if the arguments fit. -/
theorem checkArguments_yields_iff {name : String} {index : Nat} {positions : List Pos}
    {wanted types : List Ty} (hpositions : positions.length = types.length)
    (hlength : types.length = wanted.length) (hwanted : ∀ t ∈ wanted, t ≠ .unknown)
    (htypes : ∀ t ∈ types, t ≠ .unknown) :
    (checkArguments name index (positions.zip (wanted.zip types))).Yields () () () ↔
      List.Forall₂ Fits wanted types := by
  induction types generalizing index positions wanted with
  | nil =>
    obtain rfl : wanted = [] := by simpa using hlength.symm
    obtain rfl : positions = [] := by simpa using hpositions
    exact ⟨fun _ => .nil, fun _ => rfl⟩
  | cons t types ih =>
    obtain ⟨w, wanted, rfl⟩ := List.exists_cons_of_length_eq_add_one hlength.symm
    obtain ⟨p, positions, rfl⟩ := List.exists_cons_of_length_eq_add_one hpositions
    obtain ⟨hw, hwanted⟩ := List.forall_mem_cons.1 hwanted
    obtain ⟨ht, htypes⟩ := List.forall_mem_cons.1 htypes
    simp only [List.length_cons, Nat.add_right_cancel_iff] at hpositions hlength
    -- the first argument is checked against its own type, and the others are counted on
    rw [List.zip_cons_cons, List.zip_cons_cons, checkArguments, inference_bind_yields_iff,
      List.forall₂_cons]
    simp only [require_yields_iff, and_true, assignable_eq_true_iff hw ht, exists_const,
      ih hpositions hlength hwanted htypes]

/-! ### Expressions -/

/-- `variableType` passes in silence exactly if the name is a variable of the type. -/
theorem variable_yields_iff (h : Agrees fs vars table) {x : String} {pos : Pos}
    {undefined misused : TypingCause} {t : Ty} :
    (variableType table x pos undefined misused).Yields () t () ↔ (x, t) ∈ vars := by
  rcases h.lookup_cases x with ⟨s, hlookup, hsignature, hs⟩ |
    ⟨hvars, ⟨s, f, -, hlookup, -, -, hsignature⟩ | ⟨hlookup, -⟩⟩ <;>
    rw [variableType, hlookup, ofExcept_ok, pure_bind]
  · simp only [hsignature, Option.isSome_none, Bool.false_eq_true, if_false, yields_pure_iff,
      and_true]
    exact ⟨fun ht => ht ▸ hs, fun ht => h.eq_of_mem ht hs⟩
  · simp only [hsignature, Option.isSome_some, if_true]
    exact iff_of_false not_report_bind_yields (hvars t)
  · exact iff_of_false not_report_bind_yields (hvars t)

/-- What `calleeSignature` finds in silence is a function that no variable hides. -/
theorem calleeSignature_yields_iff (h : Agrees fs vars table) {callee : Expr} {pos : Pos}
    {target? : Option (String × Signature)} :
    (calleeSignature table callee.toNode pos).Yields () target? () ↔
      ∃ f ∈ fs, ∃ p, callee = .ident f.name p ∧ (∀ t, (f.name, t) ∉ vars) ∧
        target? = some (f.name, ⟨f.params, f.result⟩) := by
  cases callee with
  | ident x p =>
    rw [Expr.toNode, calleeSignature]
    rcases h.lookup_cases x with ⟨s, hlookup, hsignature, hs⟩ |
      ⟨hvars, ⟨s, f, hf, hlookup, hname, rfl, hsignature⟩ | ⟨hlookup, hfs⟩⟩ <;>
      rw [hlookup, ofExcept_ok, pure_bind]
    · -- a variable of that name stands in front of every function
      simp only [hsignature]
      refine iff_of_false not_report_bind_yields ?_
      rintro ⟨f, -, p', hident, hvisible, -⟩
      obtain ⟨rfl, rfl⟩ := Expr.ident.inj hident
      exact hvisible _ hs
    · simp only [hsignature, yields_pure_iff, and_true]
      constructor
      · rintro rfl
        exact ⟨f, hf, p, rfl, hvars, by rw [hname]⟩
      · rintro ⟨g, hg, p', hident, -, rfl⟩
        have hgf : g = f :=
          List.inj_on_of_nodup_map h.globals.nodup hg hf (Expr.ident.inj hident).1.symm
        rw [hgf, hname]
    · refine iff_of_false not_report_bind_yields ?_
      rintro ⟨f, hf, p', hident, -⟩
      exact hfs f hf (Expr.ident.inj hident).1.symm
  | _ =>
    refine iff_of_false not_report_bind_yields ?_
    rintro ⟨f, -, p', hident, -⟩
    cases hident

theorem Agrees.forall_ne_unknown (h : Agrees fs vars table) {es : List Expr} {ts : List Ty}
    (hes : HasTypes fs vars es ts) : ∀ t ∈ ts, t ≠ .unknown := by
  induction es generalizing ts with
  | nil =>
    cases hes
    simp
  | cons e es ih =>
    cases hes with
    | cons head tail => exact List.forall_mem_cons.2 ⟨h.ne_unknown head, ih tail⟩

/-- `callType` passes in silence exactly if the arguments fit. -/
theorem callType_yields_iff (h : Agrees fs vars table) {f : Function} (hf : f ∈ fs)
    {args : List Expr} {types : List Ty} (hargs : HasTypes fs vars args types) {pos : Pos}
    {t : Ty} :
    (callType f.name ⟨f.params, f.result⟩ ((Expr.toNodes args).map Node.pos) types pos).Yields
        () t () ↔
      List.Forall₂ Fits (f.params.map Param.type) types ∧ t = f.result := by
  have hpositions : ((Expr.toNodes args).map Node.pos).length = types.length := by
    rw [Expr.toNodes_eq_map, List.length_map, List.length_map, hargs.length_eq]
  have hwanted : ∀ t ∈ f.params.map Param.type, t ≠ .unknown :=
    List.forall_mem_map.2 (h.globals.params f hf)
  unfold callType
  by_cases hlength : types.length = (f.params.map Param.type).length
  · simp only [hlength, bne_self_eq_false, Bool.false_eq_true, if_false]
    rw [inference_bind_yields_iff]
    simp only [exists_const, yields_pure_iff, and_true,
      checkArguments_yields_iff hpositions hlength hwanted (h.forall_ne_unknown hargs)]
  · have hne : (types.length != (f.params.map Param.type).length) = true := by simpa using hlength
    simp only [hne, if_true]
    refine iff_of_false not_report_bind_yields fun hfits => ?_
    exact hlength hfits.1.length_eq.symm

mutual

/-- `infer` passes in silence exactly if the expression has that type. -/
theorem infer_yields_iff (h : Agrees fs vars table) : ∀ (e : Expr) (t : Ty),
    (infer table e.toNode).Yields () t () ↔ HasType fs vars e t
  | .literal kind text pos, t => by
    rw [Expr.toNode, infer, yields_pure_iff]
    constructor
    · rintro ⟨rfl, -⟩
      cases kind
      · exact .int
      · exact .float
      · exact .bool
    · intro ht
      cases ht <;> exact ⟨rfl, rfl⟩
  | .ident x pos, t => by
    rw [Expr.toNode, infer, nameType_eq, variable_yields_iff h]
    refine ⟨.var, fun ht => ?_⟩
    cases ht with
    | var hx => exact hx
  | .unary op e pos, t => by
    rw [Expr.toNode, infer, inference_bind_yields_iff]
    simp only [infer_yields_iff h e]
    constructor
    · rintro ⟨u, he, hop⟩
      rcases (unaryType_yields_iff (h.ne_unknown he)).1 hop with ⟨rfl, hu, rfl⟩ | ⟨rfl, rfl, rfl⟩
      · exact .minus he hu
      · exact .not he
    · intro ht
      cases ht with
      | minus he hu =>
        exact ⟨t, he, (unaryType_yields_iff (h.ne_unknown he)).2 (.inl ⟨rfl, hu, rfl⟩)⟩
      | not he => exact ⟨_, he, (unaryType_yields_iff (h.ne_unknown he)).2 (.inr ⟨rfl, rfl, rfl⟩)⟩
  | .binary op l r pos, t => by
    rw [Expr.toNode, infer, inference_bind_yields_iff]
    simp only [inference_bind_yields_iff, infer_yields_iff h l, infer_yields_iff h r]
    constructor
    · rintro ⟨u, hl, v, hr, htype⟩
      rcases (binaryType_yields_iff (h.ne_unknown hl) (h.ne_unknown hr)).1 htype with
        ⟨hop, ⟨hu, hv⟩, rfl⟩ | ⟨hop, huv, rfl⟩ | ⟨hop, ⟨hu, hv⟩, rfl⟩ | ⟨hop, ⟨rfl, rfl⟩, rfl⟩
      · rw [arithmetic_eq]
        exact .arithmetic hop hl hr hu hv
      · exact .equality hop hl hr huv
      · exact .order hop hl hr hu hv
      · exact .logical hop hl hr
    · intro ht
      cases ht with
      | arithmetic hop hl hr hu hv =>
        refine ⟨_, hl, _, hr, (binaryType_yields_iff (h.ne_unknown hl) (h.ne_unknown hr)).2
          (.inl ?_)⟩
        exact ⟨hop, ⟨hu, hv⟩, (arithmetic_eq _ _).symm⟩
      | equality hop hl hr huv =>
        refine ⟨_, hl, _, hr, (binaryType_yields_iff (h.ne_unknown hl) (h.ne_unknown hr)).2 ?_⟩
        exact .inr (.inl ⟨hop, huv, rfl⟩)
      | order hop hl hr hu hv =>
        refine ⟨_, hl, _, hr, (binaryType_yields_iff (h.ne_unknown hl) (h.ne_unknown hr)).2 ?_⟩
        exact .inr (.inr (.inl ⟨hop, ⟨hu, hv⟩, rfl⟩))
      | logical hop hl hr =>
        refine ⟨_, hl, _, hr, (binaryType_yields_iff (h.ne_unknown hl) (h.ne_unknown hr)).2 ?_⟩
        exact .inr (.inr (.inr ⟨hop, ⟨rfl, rfl⟩, rfl⟩))
  | .call callee args pos, t => by
    rw [Expr.toNode, infer, inference_bind_yields_iff]
    simp only [inference_bind_yields_iff, calleeSignature_yields_iff h, inferAll_yields_iff h args]
    constructor
    · rintro ⟨_, ⟨f, hf, p, rfl, hvisible, rfl⟩, types, hargs, hcall⟩
      obtain ⟨hfits, rfl⟩ := (callType_yields_iff h hf hargs).1 hcall
      exact .call hf hvisible hargs hfits
    · intro ht
      cases ht with
      | @call f _ types p _ hf hvisible hargs hfits =>
        refine ⟨_, ⟨f, hf, p, rfl, hvisible, rfl⟩, types, hargs, ?_⟩
        exact (callType_yields_iff h hf hargs).2 ⟨hfits, rfl⟩
  | .assign x e pos, t => by
    have hname : (Node.ident x pos).name = .ok x := rfl
    rw [Expr.toNode, infer, hname, ofExcept_ok, pure_bind, inference_bind_yields_iff]
    simp only [Node.pos, targetType_eq, variable_yields_iff h, inference_bind_yields_iff,
      infer_yields_iff h e, require_yields_iff, yields_pure_iff, and_true, exists_const]
    constructor
    · rintro ⟨u, hx, v, hv, hassignable, rfl⟩
      exact .assign hx hv ((assignable_eq_true_iff (h.known _ hx) (h.ne_unknown hv)).1 hassignable)
    · intro ht
      cases ht with
      | assign hx hv hfits =>
        exact ⟨t, hx, _, hv, (assignable_eq_true_iff (h.known _ hx) (h.ne_unknown hv)).2 hfits, rfl⟩

/-- `inferAll` passes in silence exactly if the expressions have those types. -/
theorem inferAll_yields_iff (h : Agrees fs vars table) : ∀ (es : List Expr) (ts : List Ty),
    (inferAll table (Expr.toNodes es)).Yields () ts () ↔ HasTypes fs vars es ts
  | [], ts => by
    rw [Expr.toNodes, inferAll, yields_pure_iff]
    constructor
    · rintro ⟨rfl, -⟩
      exact .nil
    · intro hts
      cases hts
      exact ⟨rfl, rfl⟩
  | e :: es, ts => by
    rw [Expr.toNodes, inferAll, inference_bind_yields_iff]
    simp only [inference_bind_yields_iff, infer_yields_iff h e, inferAll_yields_iff h es,
      yields_pure_iff, and_true]
    constructor
    · rintro ⟨t, ht, ts, hts, rfl⟩
      exact .cons ht hts
    · intro hts
      cases hts with
      | cons head tail => exact ⟨_, head, _, tail, rfl⟩

end

end Typing

end Tricode
