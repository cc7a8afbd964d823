import Tricode.Proofs.Typing.Walk

/-!
# What checking does to the symbol table

Whatever tree the checker visits, and whether it fails or not, it does only two things to the
scopes: it adds a symbol whose name is not taken to a scope that is there, and it opens a scope for
a function declaration (`SymbolTable.Changes`). The scope that is current and the return type change
on the way, and are what they were when the checker is done (`Context.Alters`).

`alters_check` says this once for all trees. It tells where the changes come from: the symbols are
those that the tree declares (`Node.symbols`), and the scopes are those of the function declarations
that the checker comes to (`Opens`).
-/

namespace Tricode

/-! ### Scopes in tables -/

namespace SymbolTable

/-- The global scope has the name that it is looked up by. -/
def Named (t : SymbolTable) : Prop :=
  t.globals.name = globalName

/-- A scope that was `put` into a table is found there, also if it is the global one. -/
theorem scope?_put_self (t : SymbolTable) (scope : Scope) :
    (t.put scope).scope? scope.name = some scope := by
  by_cases h : scope.name = globalName
  · have hglobal : (scope.name == globalName) = true := by simpa using h
    simp only [put, scope?, hglobal, if_true]
  · exact t.scope?_put scope h

theorem find?_replace_of_ne {scope : Scope} {name : String} (h : name ≠ scope.name)
    (scopes : List Scope) :
    (scopes.map fun s => if s.name == scope.name then scope else s).find?
        (fun s => s.name == name) =
      scopes.find? fun s => s.name == name := by
  induction scopes with
  | nil => rfl
  | cons s scopes ih =>
    rw [List.map_cons, List.find?_cons, List.find?_cons, ih]
    by_cases hs : (s.name == scope.name) = true
    · have hscope : (scope.name == name) = false := by simpa using h.symm
      rw [if_pos hs, beq_iff_eq.1 hs, hscope]
    · rw [if_neg hs]

/-- Where a scope was `put` into a table, all other scopes are what they were. -/
theorem scope?_put_of_ne (t : SymbolTable) {scope : Scope} {name : String} (h : name ≠ scope.name) :
    (t.put scope).scope? name = t.scope? name := by
  unfold put
  split
  · -- the global scope is replaced, and the name is another one
    next hglobal =>
    have hname : (name == globalName) = false := by simpa [beq_iff_eq.1 hglobal] using h
    simp only [scope?, hname, Bool.false_eq_true, if_false]
  split
  · simp only [scope?, find?_replace_of_ne h]
  · have hlast : [scope].find? (fun s => s.name == name) = none := by simpa using h.symm
    simp only [scope?, List.find?_append, hlast, Option.or_none]

theorem Named.name_eq {t : SymbolTable} (h : t.Named) {name : String} {scope : Scope}
    (hscope : t.scope? name = some scope) : scope.name = name := by
  unfold scope? at hscope
  split at hscope
  · next hname =>
    obtain rfl := Option.some.inj hscope
    exact h.trans (beq_iff_eq.1 hname).symm
  · simpa using List.find?_some hscope

/-- A scope that is put into the table is found under its own name. -/
theorem Named.put {t : SymbolTable} (h : t.Named) (scope : Scope) : (t.put scope).Named := by
  by_cases hname : scope.name = globalName
  · have hglobal : (scope.name == globalName) = true := by simpa using hname
    simp only [Named, SymbolTable.put, hglobal, if_true]
    exact hname
  · rw [Named, globals_put t hname]
    exact h

/-- The table has been changed by adding symbols with `P` whose names were not taken, and by opening
scopes with names in `X`. Which scope is current may be anything. -/
inductive Changes (X : String → Prop) (P : Symbol → Prop) : SymbolTable → SymbolTable → Prop where
  | refl {t : SymbolTable} : Changes X P t t
  | add {t t' : SymbolTable} {scope : Scope} {symbol : Symbol}
    (hscope : t.scope? scope.name = some scope)
    (hfree : scope.find? symbol.name = none) (hsymbol : P symbol)
    (rest : Changes X P (t.put (scope.insert symbol)) t') : Changes X P t t'
  | opening {t t' : SymbolTable} {name : String} (hname : X name)
    (rest : Changes X P (t.openScope name) t') : Changes X P t t'
  | turning {t t' : SymbolTable} {name : String}
    (rest : Changes X P { t with current := name } t') : Changes X P t t'

namespace Changes

variable {X : String → Prop} {P : Symbol → Prop} {t t' t'' : SymbolTable}

theorem trans (h : t.Changes X P t') (h' : t'.Changes X P t'') : t.Changes X P t'' := by
  induction h with
  | refl => exact h'
  | add hscope hfree hsymbol _ ih => exact .add hscope hfree hsymbol (ih h')
  | opening hname _ ih => exact .opening hname (ih h')
  | turning _ ih => exact .turning (ih h')

theorem named (h : t.Changes X P t') (hnamed : t.Named) : t'.Named := by
  induction h with
  | refl => exact hnamed
  | add _ _ _ _ ih => exact ih (hnamed.put _)
  | opening _ _ ih => exact ih (hnamed.put _)
  | turning _ ih => exact ih hnamed

end Changes

end SymbolTable

/-! ### What a tree declares -/

mutual

/-- The symbols that a tree of any shape declares. A function whose parameters are none is not
declared. -/
def Node.symbols : Node → List Symbol
  | .program functions _ => Node.symbolsAll functions
  | .function result name parameters body pos =>
    match parameters.mapM Node.asParam with
    | .ok ps => ⟨name, result, .function ⟨ps, result⟩, pos⟩ :: (ps.map Param.symbol ++ body.symbols)
    | .error _ => []
  | .block statements _ => Node.symbolsAll statements
  | .declare type name _ pos => [⟨name, type, .var, pos⟩]
  | .conditional _ body alternative _ => body.symbols ++ alternative.symbols
  | .loop _ body _ => body.symbols
  | _ => []

/-- The symbols that trees declare. -/
def Node.symbolsAll : List Node → List Symbol
  | [] => []
  | n :: ns => n.symbols ++ Node.symbolsAll ns

end

theorem Node.symbolsAll_append (ns ns' : List Node) :
    Node.symbolsAll (ns ++ ns') = Node.symbolsAll ns ++ Node.symbolsAll ns' := by
  induction ns with
  | nil => rfl
  | cons n ns ih => rw [List.cons_append, Node.symbolsAll, Node.symbolsAll, ih, List.append_assoc]

namespace Typing

open Pass

/-- While it visits the tree, the checker comes to the declaration of a function for which it opens
the scope of the given name. -/
def Opens (n : Node) (c : Context) (scope : String) : Prop :=
  ∃ result name params ps body pos c',
    Task.Comes (.visit n) c (.visit (.function result name params body pos)) c' ∧
      params.mapM Node.asParam = .ok ps ∧ scope = c'.scopeName name

/-- What is opened further in is opened from further out. -/
theorem Opens.of_step {n n' : Node} {c c' : Context} {scope : String} (h : Opens n' c' scope)
    (hstep : Task.Step (.visit n) c (.visit n') c') : Opens n c scope := by
  obtain ⟨result, name, params, ps, body, pos, c₁, hcomes, hparams, hscope⟩ := h
  exact ⟨result, name, params, ps, body, pos, c₁, .step hstep hcomes, hparams, hscope⟩

/-! ### Contexts -/

/-- The table has been changed, and what is current and the return type are what they were. -/
structure Context.Alters (X : String → Prop) (P : Symbol → Prop) (c c' : Context) : Prop where
  current : c'.table.current = c.table.current
  returnType : c'.returnType = c.returnType
  changes : c.table.Changes X P c'.table

variable {X : String → Prop} {P : Symbol → Prop} {α β : Type} {c : Context}

theorem Context.Alters.refl (c : Context) : c.Alters X P c :=
  ⟨rfl, rfl, .refl⟩

theorem Context.Alters.trans {c' c'' : Context} (h : c.Alters X P c') (h' : c'.Alters X P c'') :
    c.Alters X P c'' :=
  ⟨h'.current.trans h.current, h'.returnType.trans h.returnType, h.changes.trans h'.changes⟩

/-- One pass behind the other, also where the first one fails. -/
theorem alters_bind (hnamed : c.table.Named) {m : Checker α} {f : α → Checker β}
    (hm : c.Alters X P (m c).state)
    (hf : ∀ a log c', m c = ⟨.ok a, log, c'⟩ → c'.table.Named → c'.Alters X P (f a c').state) :
    c.Alters X P ((m >>= f) c).state := by
  cases h : m c with
  | mk value log c' =>
    rw [h] at hm
    -- if the first pass fails, what it has changed remains
    cases value with
    | error e =>
      rw [bind_of_error h]
      exact hm
    | ok a =>
      rw [bind_of_ok h]
      exact hm.trans (hf a log c' h (hm.changes.named hnamed))

theorem alters_bind_pure {m : Checker α} (hm : c.Alters X P (m c).state) (f : α → β) :
    c.Alters X P ((m >>= fun a => pure (f a)) c).state := by
  rw [state_bind_pure]
  exact hm

theorem alters_discard {m : Checker α} (hm : c.Alters X P (m c).state) :
    c.Alters X P (discard m c).state :=
  alters_bind_pure hm fun _ => ()

theorem alters_typeOf (n : Node) (c : Context) : c.Alters X P (typeOf n c).state := by
  rw [typeOf_apply]
  exact .refl c

theorem alters_require (holds : Bool) (cause : TypingCause) (pos : Pos) (c : Context) :
    c.Alters X P ((require holds cause pos : Checker Unit) c).state := by
  unfold require
  split <;> exact .refl c

theorem alters_typeOf_require (hnamed : c.table.Named) (n : Node) (holds : Ty → Bool)
    (cause : Ty → TypingCause) (pos : Pos) :
    c.Alters X P ((typeOf n >>= fun t => require (holds t) (cause t) pos) c).state :=
  alters_bind hnamed (alters_typeOf n c) fun _ _ c' _ _ => alters_require _ _ _ c'

/-- `checkReturn` changes nothing in the table. -/
theorem alters_checkReturn (hnamed : c.table.Named) (value : Node) (pos : Pos) :
    c.Alters X P (checkReturn value pos c).state := by
  have hget : (Pass.get : Checker Context).Yields c c c := rfl
  rw [checkReturn, hget.bind_apply]
  cases c.returnType with
  | none =>
    refine alters_bind hnamed (.refl c) fun _ _ c' _ hnamed' => ?_
    split
    · exact .refl c'
    · exact alters_discard (alters_typeOf value c')
  | some expected =>
    dsimp only
    split
    · exact alters_require _ _ _ c
    · exact alters_typeOf_require hnamed value _ _ pos

/-! ### Declarations -/

/-- `declare` adds a symbol to the current scope, or changes nothing. -/
theorem alters_declare (hnamed : c.table.Named) {name : String} {type : Ty} {role : Role}
    {pos : Pos}
    (hsymbol : P ⟨name, type, role, pos⟩) : c.Alters X P (declare name type role pos c).state := by
  have hget : (Pass.get : Checker Context).Yields c c c := rfl
  rw [declare, hget.bind_apply]
  cases hscope : c.table.scope? c.table.current with
  -- without a current scope the declaration fails, and nothing is changed
  | none =>
    rw [SymbolTable.currentScope, hscope]
    exact .refl c
  | some scope =>
    rw [SymbolTable.currentScope_eq hscope, ofExcept_ok, pure_bind]
    split
    · exact .refl c
    · next hfree =>
      have hname : scope.name = c.table.current := hnamed.name_eq hscope
      refine ⟨c.table.current_put _, rfl, .add (hname.symm ▸ hscope) ?_ hsymbol .refl⟩
      simpa using hfree

theorem alters_declareParams (hnamed : c.table.Named) {ps : List Param}
    (hps : ∀ p ∈ ps, P p.symbol) : c.Alters X P (declareParams ps c).state := by
  induction ps generalizing c with
  | nil => exact .refl c
  | cons p ps ih =>
    obtain ⟨hp, hps⟩ := List.forall_mem_cons.1 hps
    exact alters_bind hnamed (alters_declare hnamed hp) fun _ _ _ _ hnamed' => ih hnamed' hps

/-- `declareFunction` adds a symbol to the global scope, or changes nothing there. -/
theorem alters_declareFunction (hnamed : c.table.Named) {name : String} {signature : Signature}
    {pos : Pos} (hsymbol : P ⟨name, signature.result, .function signature, pos⟩) :
    c.Alters X P (declareFunction name signature pos c).state := by
  have hget : (Pass.get : Checker Context).Yields c c c := rfl
  rw [declareFunction, hget.bind_apply]
  split
  · exact ⟨rfl, rfl, .refl⟩
  · next hfree =>
    have hscope : c.table.scope? c.table.globals.name = some c.table.globals := by
      rw [hnamed, SymbolTable.scope?]
      exact if_pos (beq_self_eq_true _)
    have hglobal : (c.table.globals.name == SymbolTable.globalName) = true := by
      rw [hnamed]
      exact beq_self_eq_true _
    -- putting the global scope back is replacing it
    have hput : ∀ symbol, c.table.put (c.table.globals.insert symbol) =
        { c.table with globals := c.table.globals.insert symbol } :=
      fun _ => if_pos hglobal
    refine ⟨rfl, rfl, .add hscope (by simpa using hfree) hsymbol ?_⟩
    rw [hput]
    exact .refl

/-- `declareFunction` gives the name of the scope, whether the name is new or not. -/
theorem declareFunction_value (name : String) (signature : Signature) (pos : Pos) (c : Context) :
    (declareFunction name signature pos c).value = .ok (c.scopeName name) := by
  have hget : (Pass.get : Checker Context).Yields c c c := rfl
  rw [declareFunction, hget.bind_apply]
  unfold Context.scopeName
  split <;> rfl

theorem alters_inFunction {scope : String} {result : Ty} {body : Checker α}
    (hbody : Context.Alters X P { c with table.current := scope, returnType := result.given? }
      (body { c with table.current := scope, returnType := result.given? }).state) :
    c.Alters X P (inFunction scope result body c).state :=
  ⟨rfl, rfl, .turning (hbody.changes.trans (.turning .refl))⟩

/-! ### Trees of any shape -/

mutual

/-- Whatever a tree is, and whether `check` succeeds or not, the scope that is current and the
return type are what they were, and the table has been changed by adding symbols of the tree and by
opening scopes for the functions that the checker came to. -/
theorem alters_check :
    ∀ (n : Node) (c : Context), c.table.Named → (∀ scope, Opens n c scope → X scope) →
    (∀ symbol ∈ n.symbols, P symbol) → c.Alters X P (check n c).state
  | .program functions pos, c, hnamed, hX, hP => by
    rw [check]
    refine alters_bind_pure (alters_checkAll functions c hnamed ?_ hP) _
    rintro before n after log c' rfl lead scope hscope
    exact hX scope (hscope.of_step (.function lead))
  | .function result name params body pos, c, hnamed, hX, hP => by
    rw [check]
    cases hparams : params.mapM Node.asParam with
    | error e => exact .refl c
    | ok ps =>
      rw [Node.symbols, hparams] at hP
      obtain ⟨hsymbol, hrest⟩ := List.forall_mem_cons.1 hP
      obtain ⟨hps, hbody⟩ := List.forall_mem_append.1 hrest
      rw [ofExcept_ok, pure_bind]
      refine alters_bind hnamed (alters_declareFunction hnamed hsymbol)
        fun scope log c₁ hdeclare hnamed₁ => ?_
      have hscope : c.scopeName name = scope := by
        have hvalue := declareFunction_value name ⟨ps, result⟩ pos c
        rw [hdeclare] at hvalue
        exact (Except.ok.inj hvalue).symm
      have hopen : X scope :=
        hX scope ⟨result, name, params, ps, body, pos, c, .here, hparams, hscope.symm⟩
      refine alters_bind hnamed₁ ⟨c₁.table.current_put _, rfl, .opening hopen .refl⟩
        fun _ _ c₂ hmodify hnamed₂ => alters_bind_pure (alters_inFunction ?_) _
      obtain rfl := (Outcome.mk.inj hmodify).2.2
      -- inside, the parameters are declared and the body is visited
      have hentered : (c₁.entered result ⟨scope, some SymbolTable.globalName, []⟩).table.Named :=
        hnamed₂
      refine alters_bind hentered (alters_declareParams hentered (List.forall_mem_map.1 hps))
        fun _ _ c' lead hnamed' => alters_discard (alters_check body c' hnamed' ?_ hbody)
      exact fun scope' hscope' => hX scope' (hscope'.of_step (.body hparams hdeclare lead))
  | .block statements pos, c, hnamed, hX, hP => by
    rw [check]
    refine alters_bind_pure (alters_checkAll statements c hnamed ?_ hP) _
    rintro before n after log c' rfl lead scope hscope
    exact hX scope (hscope.of_step (.statement lead))
  | .declare type name init pos, c, hnamed, _, hP => by
    rw [check]
    refine alters_bind hnamed (alters_declare hnamed (List.forall_mem_singleton.1 hP))
      fun _ _ c' _ hnamed' => ?_
    split
    · exact .refl c'
    · refine alters_bind hnamed' (alters_typeOf init c') fun _ _ c₁ _ hnamed₁ => ?_
      exact alters_bind_pure (alters_require _ _ _ c₁) _
  | .conditional cond body alternative pos, c, hnamed, hX, hP => by
    obtain ⟨hbody, halternative⟩ := List.forall_mem_append.1 hP
    rw [check]
    refine alters_bind hnamed (alters_typeOf_require hnamed cond _ _ _)
      fun _ _ c₁ hcond hnamed₁ => ?_
    rw [discard_bind]
    refine alters_bind hnamed₁ (alters_check body c₁ hnamed₁ ?_ hbody) fun t _ c₂ lead hnamed₂ => ?_
    · exact fun scope hscope => hX scope (hscope.of_step (.consequence hcond))
    · split
      · exact .refl c₂
      · next habsent =>
        refine alters_bind_pure (alters_discard
          (alters_check alternative c₂ hnamed₂ ?_ halternative)) _
        refine fun scope hscope => hX scope (hscope.of_step (.alternative hcond lead ?_))
        simpa using habsent
  | .loop cond body pos, c, hnamed, hX, hP => by
    rw [check]
    refine alters_bind hnamed (alters_typeOf_require hnamed cond _ _ _)
      fun _ _ c₁ hcond hnamed₁ => ?_
    refine alters_bind_pure (alters_discard (alters_check body c₁ hnamed₁ ?_ hP)) _
    exact fun scope hscope => hX scope (hscope.of_step (.loopBody hcond))
  | .ret value pos, c, hnamed, _, _ => by
    rw [check]
    exact alters_bind_pure (alters_checkReturn hnamed value pos) _
  | .expr e pos, c, hnamed, _, _ => by
    rw [check]
    exact alters_bind_pure (alters_discard (alters_typeOf e c)) _
  | .absent, c, _, _, _ | .literal .., c, _, _, _ | .ident .., c, _, _, _ | .unary .., c, _, _, _
  | .binary .., c, _, _, _ | .call .., c, _, _, _ | .assign .., c, _, _, _ | .param .., c, _, _, _
  | .params .., c, _, _, _ => alters_typeOf _ c

theorem alters_checkAll : ∀ (ns : List Node) (c : Context), c.table.Named →
    (∀ before n after log c', ns = before ++ n :: after → checkAll before c = ⟨.ok (), log, c'⟩ →
      ∀ scope, Opens n c' scope → X scope) →
    (∀ symbol ∈ Node.symbolsAll ns, P symbol) → c.Alters X P (checkAll ns c).state
  | [], c, _, _, _ => .refl c
  | n :: ns, c, hnamed, hX, hP => by
    obtain ⟨hn, hns⟩ := List.forall_mem_append.1 hP
    rw [checkAll, discard_bind]
    refine alters_bind hnamed (alters_check n c hnamed (hX [] n ns _ c rfl rfl) hn)
      fun t log c₁ hcheck hnamed₁ => alters_checkAll ns c₁ hnamed₁ ?_ hns
    rintro before n' after log' c' rfl lead
    exact hX (n :: before) n' after _ c' rfl (bind_eq (discard_eq hcheck) lead)

end

end Typing

end Tricode
