import Tricode.Proofs.Bare
import Tricode.Proofs.Typing.Resolution

/-!
# Checking without positions

The checker reads positions only to write them into symbols and findings. A program without its
positions is therefore checked like the program itself: the same causes are reported in the same
order, and the table is the table of the program without its positions (`analyze_bare`).

The two runs go side by side, in contexts of which one is the other without positions (`likeness`).
-/

namespace Tricode

/-! ### Symbol tables -/

theorem Symbol.signature?_bare (s : Symbol) :
    s.bare.signature? = s.signature?.map Signature.bare := by
  unfold Symbol.signature? Symbol.bare
  cases s.role <;> rfl

theorem Scope.find?_bare (s : Scope) (x : String) : s.bare.find? x = (s.find? x).map Symbol.bare :=
  List.find?_map

theorem Scope.insert_bare (s : Scope) (symbol : Symbol) :
    (s.insert symbol).bare = s.bare.insert symbol.bare := by
  simp only [Scope.insert, Scope.bare, List.map_append, List.map_singleton]

namespace SymbolTable

theorem scope?_bare (t : SymbolTable) (name : String) :
    t.bare.scope? name = (t.scope? name).map Scope.bare := by
  unfold scope?
  split
  · rfl
  · exact List.find?_map

theorem currentScope_bare (t : SymbolTable) :
    t.bare.currentScope = t.currentScope.map Scope.bare := by
  have hcurrent : t.bare.current = t.current := rfl
  unfold currentScope
  rw [scope?_bare, hcurrent]
  cases t.scope? t.current <;> rfl

/-- `lookup` finds a name without positions as with them. -/
theorem lookup_bare (t : SymbolTable) (x : String) :
    t.bare.lookup x = (t.lookup x).map (Option.map Symbol.bare) := by
  unfold lookup
  rw [currentScope_bare]
  cases t.currentScope with
  | error f => rfl
  | ok scope =>
    show Except.ok ((scope.bare.find? x).or (t.globals.bare.find? x)) =
      Except.ok (((scope.find? x).or (t.globals.find? x)).map Symbol.bare)
    rw [Scope.find?_bare, Scope.find?_bare, Option.map_or]

/-- A scope is `put` into a table without positions as with them. -/
theorem put_bare (t : SymbolTable) (scope : Scope) :
    (t.put scope).bare = t.bare.put scope.bare := by
  have hname : scope.bare.name = scope.name := rfl
  have hany : t.bare.locals.any (fun s => s.name == scope.name) =
      t.locals.any fun s => s.name == scope.name := List.any_map
  -- replacing the scope of that name and forgetting positions commute
  have hreplace : ∀ s : Scope, (if s.name == scope.name then scope else s).bare =
      if s.bare.name == scope.name then scope.bare else s.bare :=
    fun s => apply_ite Scope.bare _ _ _
  have hlocals : (t.locals.map fun s => if s.name == scope.name then scope else s).map Scope.bare =
      t.bare.locals.map fun s => if s.name == scope.name then scope.bare else s := by
    rw [SymbolTable.bare, List.map_map, List.map_map]
    exact List.map_congr_left fun s _ => hreplace s
  unfold put
  rw [hname, hany]
  split
  · rfl
  split
  · simp only [SymbolTable.bare, hlocals]
  · simp only [SymbolTable.bare, List.map_append, List.map_singleton]

end SymbolTable

namespace Typing

open Pass Pass.Pairing

/-- The context without positions. -/
def Context.bare (context : Context) : Context :=
  { context with table := context.table.bare }

/-- Findings with the same cause, wherever they are, from states that compare in the given way. -/
def sameCauses {σ : Type} (states : σ → σ → Prop) : Pairing σ (Finding TypingCause) :=
  ⟨states, fun f g => f.cause = g.cause⟩

/-- Two runs of the checker, of which the second has no positions in its context. -/
def likeness : Pairing Context (Finding TypingCause) :=
  sameCauses fun context context' => context' = context.bare

/-- Two runs of type inference, which has no state. -/
def inferences : Pairing Unit (Finding TypingCause) :=
  sameCauses fun _ _ => True

/-! ### Expressions -/

section

variable {σ ε : Type} {states : σ → σ → Prop}

theorem agrees_report (cause : TypingCause) (p q : Pos) :
    (sameCauses states).Agrees (report cause p : Pass σ _ ε Unit) (report cause q)
      fun _ _ => True :=
  agrees_write rfl

theorem agrees_require (holds : Bool) (cause : TypingCause) (p q : Pos) :
    (sameCauses states).Agrees (require holds cause p : Pass σ _ ε Unit) (require holds cause q)
      fun _ _ => True := by
  unfold require
  cases holds with
  | true => exact agrees_pure trivial
  | false => exact agrees_report cause p q

/-- A report, or a requirement, and a value that does not depend on it. -/
theorem agrees_bind_pure {α β : Type} {V : α → α → Prop} {m m' : Pass σ (Finding TypingCause) ε α}
    (h : (sameCauses states).Agrees m m' V) (b : β) :
    (sameCauses states).Agrees (m >>= fun _ => pure b) (m' >>= fun _ => pure b) Eq :=
  h.bind fun _ _ _ => agrees_pure rfl

end

theorem agrees_unaryType (op : String) (t : Ty) (p q : Pos) :
    inferences.Agrees (unaryType op t p) (unaryType op t q) Eq := by
  unfold unaryType
  split
  · exact agrees_bind_pure (agrees_require _ _ p q) _
  split
  · exact agrees_bind_pure (agrees_require _ _ p q) _
  · exact agrees_bind_pure (agrees_report _ p q) _

/-- `binaryType` does not depend on where an operation stands. -/
theorem agrees_binaryType (op : String) (l r : Ty) (p q : Pos) :
    inferences.Agrees (binaryType op l r p) (binaryType op l r q) Eq := by
  unfold binaryType
  dsimp only
  split
  · split
    · exact agrees_pure rfl
    · exact agrees_bind_pure (agrees_require _ _ p q) _
  split
  · exact agrees_bind_pure (agrees_require _ _ p q) _
  split
  · exact agrees_bind_pure (agrees_require _ _ p q) _
  split
  · exact agrees_bind_pure (agrees_require _ _ p q) _
  · exact agrees_bind_pure (agrees_report _ p q) _

/-- A name is found on both sides, or on none. -/
theorem agrees_lookup (table : SymbolTable) (x : String) :
    inferences.Agrees (ofExcept (table.lookup x)) (ofExcept (table.bare.lookup x))
      fun symbol? symbol?' => symbol?' = symbol?.map Symbol.bare := by
  rw [SymbolTable.lookup_bare]
  cases table.lookup x with
  | error f => exact agrees_fail f
  | ok symbol? => exact agrees_pure rfl

theorem agrees_variableType (table : SymbolTable) (x : String) (p q : Pos)
    (undefined misused : TypingCause) :
    inferences.Agrees (variableType table x p undefined misused)
      (variableType table.bare x q undefined misused) Eq := by
  unfold variableType
  refine (agrees_lookup table x).bind fun symbol? symbol?' hsymbol => ?_
  subst hsymbol
  cases symbol? with
  | none => exact agrees_bind_pure (agrees_report _ p q) _
  | some symbol =>
    have hsignature : symbol.bare.signature?.isSome = symbol.signature?.isSome := by
      rw [symbol.signature?_bare, Option.isSome_map]
    dsimp only [Option.map_some]
    rw [hsignature]
    split
    · exact agrees_bind_pure (agrees_report _ p q) _
    · exact agrees_pure rfl

/-- The same name is called, with the same signature up to positions, or none can be. -/
def SameTarget : Option (String × Signature) → Option (String × Signature) → Prop :=
  Option.Rel fun target target' => target'.1 = target.1 ∧ target'.2 = target.2.bare

theorem agrees_calleeSignature (table : SymbolTable) (f : Expr) (p q : Pos) :
    inferences.Agrees (calleeSignature table f.toNode p)
      (calleeSignature table.bare f.bare.toNode q) SameTarget := by
  have hreport : ∀ (cause : TypingCause) (p q : Pos), inferences.Agrees
      (do report cause p; pure none : Inference (Option (String × Signature)))
      (do report cause q; pure none) SameTarget :=
    fun cause p q => (agrees_report cause p q).bind fun _ _ _ => agrees_pure .none
  cases f with
  | ident x p' =>
    refine (agrees_lookup table x).bind fun symbol? symbol?' hsymbol => ?_
    subst hsymbol
    cases symbol? with
    | none => exact hreport _ _ _
    | some symbol =>
      dsimp only [Option.map_some]
      rw [symbol.signature?_bare]
      cases symbol.signature? with
      | some signature => exact agrees_pure (.some ⟨rfl, rfl⟩)
      | none => exact hreport _ _ _
  | _ => exact hreport _ _ _

/-- Arguments with the same types, wherever they are. -/
theorem agrees_checkArguments (name : String) (index : Nat) {args args' : List (Pos × Ty × Ty)}
    (h : List.Forall₂ (fun a a' => a.2 = a'.2) args args') :
    inferences.Agrees (checkArguments name index args) (checkArguments name index args')
      fun _ _ => True := by
  induction h generalizing index with
  | nil => exact agrees_pure trivial
  | @cons arg arg' _ _ harg _ ih =>
    obtain ⟨p, expected, actual⟩ := arg
    obtain ⟨q, expected', actual'⟩ := arg'
    obtain ⟨rfl, rfl⟩ := Prod.mk.inj harg
    exact (agrees_require _ _ p q).bind fun _ _ _ => ih (index + 1)

theorem forall₂_zip {ps qs : List Pos} (h : ps.length = qs.length) (types : List (Ty × Ty)) :
    List.Forall₂ (fun a a' => a.2 = a'.2) (ps.zip types) (qs.zip types) := by
  induction ps generalizing qs types with
  | nil =>
    obtain rfl : qs = [] := by simpa using h.symm
    exact .nil
  | cons p ps ih =>
    obtain ⟨q, qs, rfl⟩ := List.exists_cons_of_length_eq_add_one h.symm
    cases types with
    | nil => exact .nil
    | cons t types => exact .cons rfl (ih (Nat.succ.inj h) types)

/-- `callType` does not depend on where the call and its arguments stand. -/
theorem agrees_callType (name : String) (signature : Signature) {ps qs : List Pos}
    (h : ps.length = qs.length) (types : List Ty) (p q : Pos) :
    inferences.Agrees (callType name signature ps types p)
      (callType name signature.bare qs types q) Eq := by
  -- the types of the parameters are what they were
  have hparams : signature.bare.params.map Param.type = signature.params.map Param.type := by
    rw [Signature.bare, List.map_map]
    rfl
  unfold callType
  dsimp only
  rw [hparams]
  split
  · exact agrees_bind_pure (agrees_report _ p q) _
  · exact agrees_bind_pure (agrees_checkArguments _ _ (forall₂_zip h _)) _

mutual

/-- `infer` gives the same type, and reports the same, without positions. -/
theorem agrees_infer (table : SymbolTable) : ∀ e : Expr,
    inferences.Agrees (infer table e.toNode) (infer table.bare e.bare.toNode) Eq
  | .literal .. => agrees_pure rfl
  | .ident x p => by
    rw [Expr.bare, Expr.toNode, Expr.toNode, infer, infer, nameType_eq, nameType_eq]
    exact agrees_variableType table x p _ _ _
  | .unary op e p => by
    refine (agrees_infer table e).bind fun t t' ht => ?_
    subst ht
    exact agrees_unaryType op t p _
  | .binary op l r p => by
    refine (agrees_infer table l).bind fun t t' ht => (agrees_infer table r).bind fun u u' hu => ?_
    subst ht hu
    exact agrees_binaryType op t u p _
  | .call f args p => by
    refine (agrees_calleeSignature table f p _).bind fun target? target?' htarget =>
      (agrees_inferAll table args).bind fun types types' htypes => ?_
    subst htypes
    -- the arguments are as many, wherever they stand
    have hlength : ((Expr.toNodes args).map Node.pos).length =
        ((Expr.toNodes (Expr.bareAll args)).map Node.pos).length := by
      simp only [Expr.toNodes_eq_map, Expr.bareAll_eq_map, List.length_map]
    cases htarget with
    | none => exact agrees_pure rfl
    | @some target target' htarget =>
      obtain ⟨name, signature⟩ := target
      obtain ⟨name', signature'⟩ := target'
      obtain ⟨rfl, rfl⟩ : name' = name ∧ signature' = signature.bare := htarget
      exact agrees_callType name' signature hlength types p _
  | .assign x e p => by
    have htarget : inferences.Agrees (targetType table x p)
        (targetType table.bare x .nowhere) Eq := by
      rw [targetType_eq, targetType_eq]
      exact agrees_variableType table x p _ _ _
    refine htarget.bind fun t t' ht => (agrees_infer table e).bind fun u u' hu => ?_
    subst ht hu
    exact agrees_bind_pure (agrees_require _ _ p _) _

theorem agrees_inferAll (table : SymbolTable) : ∀ es : List Expr,
    inferences.Agrees (inferAll table (Expr.toNodes es))
      (inferAll table.bare (Expr.toNodes (Expr.bareAll es))) Eq
  | [] => agrees_pure rfl
  | e :: es => by
    refine (agrees_infer table e).bind fun t t' ht =>
      (agrees_inferAll table es).bind fun ts ts' hts => ?_
    subst ht hts
    exact agrees_pure rfl

end

/-! ### Statements -/

/-- `typeOf` gives the same with and without positions. -/
theorem agrees_typeOf (e : Expr) : likeness.Agrees (typeOf e.toNode) (typeOf e.bare.toNode) Eq := by
  rintro context _ rfl
  -- inference has no state of its own, and leaves the contexts as they are
  have hends := agrees_infer context.table e () () trivial
  rw [typeOf_apply, typeOf_apply, Context.bare]
  generalize infer context.table e.toNode () = r at hends ⊢
  generalize infer context.table.bare e.bare.toNode () = r' at hends ⊢
  cases hends with
  | ok logs values => exact .ok logs ⟨values.1, rfl⟩
  | error logs _ => exact .error logs rfl

/-- What is found in the context of the first run is found, without positions, in that of the
second. -/
theorem agrees_get_bind {α : Type} {V : α → α → Prop} {f f' : Context → Checker α}
    (h : ∀ context, likeness.Agrees (f context) (f' context.bare) V) :
    likeness.Agrees (Pass.get >>= f) (Pass.get >>= f') V := by
  rintro context _ rfl
  exact h context context _ rfl

theorem agrees_modify {f f' : Context → Context}
    (h : ∀ context, f' context.bare = (f context).bare) :
    likeness.Agrees (Pass.modify f : Checker Unit) (Pass.modify f') fun _ _ => True := by
  rintro context _ rfl
  exact .ok .nil ⟨trivial, h context⟩

/-- Inserting a symbol into a scope of the context, once without positions. -/
theorem agrees_put (scope : Scope) :
    likeness.Agrees
      (Pass.modify fun context => { context with table := context.table.put scope } : Checker Unit)
      (Pass.modify fun context => { context with table := context.table.put scope.bare })
      fun _ _ => True :=
  agrees_modify fun context => by simp only [Context.bare, SymbolTable.put_bare]

/-- `declare` does the same with and without positions. -/
theorem agrees_declare (x : String) (type : Ty) {role : Role} (hrole : role.bare = role) (p : Pos) :
    likeness.Agrees (declare x type role p) (declare x type role .nowhere) fun _ _ => True := by
  refine agrees_get_bind fun context => ?_
  have hscope : likeness.Agrees (Pass.ofExcept context.table.currentScope : Checker Scope)
      (Pass.ofExcept context.bare.table.currentScope) fun scope scope' => scope' = scope.bare := by
    rw [Context.bare, SymbolTable.currentScope_bare]
    cases context.table.currentScope with
    | error f => exact agrees_fail f
    | ok scope => exact agrees_pure rfl
  refine hscope.bind fun scope _ hbare => ?_
  subst hbare
  rw [Scope.find?_bare, Option.isSome_map]
  split
  · exact agrees_report _ p _
  · have hsymbol : (scope.insert ⟨x, type, role, p⟩).bare =
        scope.bare.insert ⟨x, type, role, .nowhere⟩ := by
      rw [Scope.insert_bare, Symbol.bare, hrole]
    have hput := agrees_put (scope.insert ⟨x, type, role, p⟩)
    rwa [hsymbol] at hput

theorem agrees_declareParams (ps : List Param) :
    likeness.Agrees (declareParams ps) (declareParams (ps.map Param.bare)) fun _ _ => True := by
  induction ps with
  | nil => exact agrees_pure trivial
  | cons p ps ih => exact (agrees_declare p.name p.type rfl p.pos).bind fun _ _ _ => ih

theorem agrees_checkCondition (e : Expr) (cause : TypingCause) :
    likeness.Agrees (checkCondition e.toNode cause) (checkCondition e.bare.toNode cause)
      fun _ _ => True := by
  refine (agrees_typeOf e).bind fun t t' ht => ?_
  subst ht
  exact agrees_require _ _ _ _

/-- An expression that has to fit somewhere is typed, and the same is required of its type. -/
theorem agrees_typeOf_require (e : Expr) (holds : Ty → Bool) (cause : Ty → TypingCause)
    (p q : Pos) :
    likeness.Agrees (do let t ← typeOf e.toNode; require (holds t) (cause t) p)
      (do let t ← typeOf e.bare.toNode; require (holds t) (cause t) q) fun _ _ => True := by
  refine (agrees_typeOf e).bind fun t t' ht => ?_
  subst ht
  exact agrees_require _ _ p q

theorem agrees_checkReturn (value : Option Expr) (p q : Pos) :
    likeness.Agrees (checkReturn (.ofExpr? value) p)
      (checkReturn (.ofExpr? (value.map Expr.bare)) q) fun _ _ => True := by
  refine agrees_get_bind fun context => ?_
  have hreturnType : context.bare.returnType = context.returnType := rfl
  rw [hreturnType]
  cases value with
  | none =>
    cases context.returnType with
    | none => exact (agrees_report _ p q).bind fun _ _ _ => agrees_pure trivial
    | some expected => exact agrees_require _ _ p q
  | some e =>
    rw [Option.map_some, Node.ofExpr?, Node.ofExpr?, e.isAbsent_toNode, e.bare.isAbsent_toNode]
    cases context.returnType with
    | none =>
      exact (agrees_report _ p q).bind fun _ _ _ => (agrees_typeOf e).discard
    | some expected => exact agrees_typeOf_require e _ _ p q

mutual

/-- `check` reports the same about a statement without positions, and declares the same. -/
theorem agrees_check : ∀ s : Stmt, likeness.Agrees (check s.toNode) (check s.bare.toNode) Eq
  | .expr e _ => agrees_bind_pure (agrees_typeOf e).discard _
  | .declare t x none p => agrees_bind_pure (agrees_declare x t rfl p) _
  | .declare t x (some e) p => by
    rw [Stmt.bare, Stmt.toNode, Stmt.toNode, check, check]
    refine (agrees_declare x t rfl p).bind fun _ _ _ => ?_
    rw [Option.map_some, Node.ofExpr?, Node.ofExpr?, e.isAbsent_toNode, e.bare.isAbsent_toNode]
    refine (agrees_typeOf e).bind fun u u' hu => ?_
    subst hu
    exact agrees_bind_pure (agrees_require _ _ p _) _
  | .ifThen c b _ => (agrees_checkCondition c _).bind fun _ _ _ =>
      agrees_bind_pure (agrees_checkBlock b).discard _
  | .ifElse c b a _ => by
    rw [Stmt.bare, Stmt.toNode, Stmt.toNode, check, check]
    refine (agrees_checkCondition c _).bind fun _ _ _ =>
      (agrees_checkBlock b).discard.bind fun _ _ _ => ?_
    rw [a.isAbsent_toNode, a.bare.isAbsent_toNode]
    exact agrees_bind_pure (agrees_checkBlock a).discard _
  | .loop c b _ => (agrees_checkCondition c _).bind fun _ _ _ =>
      agrees_bind_pure (agrees_checkBlock b).discard _
  | .ret value p => agrees_bind_pure (agrees_checkReturn value p _) _

theorem agrees_checkBlock : ∀ b : Block, likeness.Agrees (check b.toNode) (check b.bare.toNode) Eq
  | .mk ss _ => agrees_bind_pure (agrees_checkAll ss) _

theorem agrees_checkAll : ∀ ss : List Stmt,
    likeness.Agrees (checkAll (Stmt.toNodes ss)) (checkAll (Stmt.toNodes (Stmt.bareAll ss)))
      fun _ _ => True
  | [] => agrees_pure trivial
  | s :: ss => (agrees_check s).discard.bind fun _ _ _ => agrees_checkAll ss

end

/-! ### Functions and programs -/

/-- `declareFunction` does the same with and without positions. -/
theorem agrees_declareFunction (name : String) (signature : Signature) (p : Pos) :
    likeness.Agrees (declareFunction name signature p)
      (declareFunction name signature.bare .nowhere) Eq := by
  refine agrees_get_bind fun context => ?_
  have hfind : context.bare.table.globals.find? name =
      (context.table.globals.find? name).map Symbol.bare := Scope.find?_bare _ _
  have hcount : context.bare.declarations = context.declarations := rfl
  rw [hfind, hcount, Option.isSome_map]
  split
  · refine (agrees_report _ p _).bind fun _ _ _ => ?_
    exact (agrees_modify fun context => rfl : likeness.Agrees
      (Pass.modify fun context =>
        { context with declarations := (name, _) :: context.declarations }) _
        _).bind fun _ _ _ => agrees_pure rfl
  · refine (agrees_modify fun context => ?_).bind fun _ _ _ => agrees_pure rfl
    simp only [Context.bare, SymbolTable.bare, Scope.insert_bare]
    rfl

/-- The body of a function is checked alike `inFunction`, and the context is restored alike. -/
theorem agrees_inFunction {α : Type} {V : α → α → Prop} {body body' : Checker α}
    (h : likeness.Agrees body body' V) (scope : String) (result : Ty) :
    likeness.Agrees (inFunction scope result body) (inFunction scope result body') V := by
  rintro context _ rfl
  have hends := h { context with table.current := scope, returnType := result.given? }
    { context.bare with table.current := scope, returnType := result.given? } rfl
  unfold inFunction
  generalize body { context with table.current := scope, returnType := result.given? } =
    r at hends ⊢
  generalize body' { context.bare with table.current := scope, returnType := result.given? } =
    r' at hends ⊢
  -- both bodies end alike, and what is restored was the same before
  cases hends with
  | @ok _ _ _ _ after after' logs values =>
    obtain ⟨hvalues, hafter⟩ := values
    obtain rfl : after' = after.bare := hafter
    exact .ok logs ⟨hvalues, rfl⟩
  | @error _ _ _ after after' logs states =>
    obtain rfl : after' = after.bare := states
    exact .error logs rfl

theorem agrees_enter (scope : String) (f : Function) :
    likeness.Agrees (enter scope f) (enter scope f.bare) Eq := by
  have hopen : ∀ context : Context,
      ({ context.bare with table := context.bare.table.openScope scope } : Context) =
        Context.bare { context with table := context.table.openScope scope } := by
    intro context
    simp only [Context.bare, SymbolTable.openScope, SymbolTable.put_bare]
    rfl
  have hbody :
      likeness.Agrees (do declareParams f.params; discard (check f.body.toNode) : Checker Unit)
      (do declareParams f.bare.params; discard (check f.bare.body.toNode)) fun _ _ => True :=
    (agrees_declareParams f.params).bind fun _ _ _ => (agrees_checkBlock f.body).discard
  exact (agrees_modify hopen).bind fun _ _ _ => agrees_bind_pure (agrees_inFunction hbody _ _) _

theorem agrees_check_function (f : Function) :
    likeness.Agrees (check f.toNode) (check f.bare.toNode) Eq := by
  rw [check_function_eq, check_function_eq]
  refine (agrees_declareFunction f.name ⟨f.params, f.result⟩ f.pos).bind
    fun scope scope' hscope => ?_
  subst hscope
  exact agrees_enter scope f

theorem agrees_checkAll_functions (fs : List Function) :
    likeness.Agrees (checkAll (fs.map Function.toNode))
      (checkAll ((fs.map Function.bare).map Function.toNode)) fun _ _ => True := by
  induction fs with
  | nil => exact agrees_pure trivial
  | cons f fs ih => exact (agrees_check_function f).discard.bind fun _ _ _ => ih

end Typing

/-- `analyze` reports the same about a program without its positions, and the table is the same up
to positions. -/
theorem analyze_bare (p : Program) :
    (analyze p.bare).table = (analyze p).table.bare ∧
      (analyze p.bare).findings.map Finding.cause = (analyze p).findings.map Finding.cause ∧
      (analyze p.bare).fault = (analyze p).fault := by
  have hprogram : Typing.likeness.Agrees (Typing.check p.toNode) (Typing.check p.bare.toNode) Eq :=
    Typing.agrees_bind_pure (Typing.agrees_checkAll_functions p.functions) _
  have hends := hprogram .empty .empty rfl
  unfold analyze
  generalize Typing.check p.toNode .empty = r at hends ⊢
  generalize Typing.check p.bare.toNode .empty = r' at hends ⊢
  cases hends with
  | ok logs values => exact ⟨by rw [values.2]; rfl, (map_eq_of_forall₂ logs).symm, rfl⟩
  | error logs states => exact ⟨by rw [states]; rfl, (map_eq_of_forall₂ logs).symm, rfl⟩

end Tricode
