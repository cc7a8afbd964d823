import Tricode.Proofs.Typing.Acceptance
import Tricode.Proofs.Typing.Alterations

/-!
# What is unknown has been reported

The type `unknown` comes up where something failed to resolve. Some operators pass it on, others
swallow it, and all are silent about it. Yet no finding is lost: where no symbol is `unknown`, a
report has been made before `unknown` is the type of an expression (`settles_infer`).

For a program that the parser finds in a source text there is never such a symbol. Wherever the
checker comes to, the symbols have types of the language, and so does everything that it types,
except for `unknown`. So if there is no finding at the end then there was no `unknown` on the way
(`unknown_explained`).
-/

namespace Tricode

/-! ### Symbols of tables -/

namespace SymbolTable

/-- All symbols in the table have `P`. -/
def All (P : Symbol → Prop) (t : SymbolTable) : Prop :=
  ∀ scope ∈ t.scopes, ∀ symbol ∈ scope.symbols, P symbol

variable {X : String → Prop} {P Q : Symbol → Prop} {t t' : SymbolTable}

theorem All.mono (h : t.All P) (himp : ∀ symbol, P symbol → Q symbol) : t.All Q :=
  fun scope hscope symbol hsymbol => himp symbol (h scope hscope symbol hsymbol)

theorem all_empty : All P empty := by
  intro scope hscope symbol hsymbol
  obtain rfl := List.mem_singleton.1 hscope
  cases hsymbol

/-- A scope that is found is one of the scopes. -/
theorem mem_scopes_of_scope? {name : String} {scope : Scope} (h : t.scope? name = some scope) :
    scope ∈ t.scopes := by
  unfold scope? at h
  split at h
  · obtain rfl := Option.some.inj h
    exact List.mem_cons_self
  · exact List.mem_cons_of_mem _ (List.mem_of_find?_eq_some h)

/-- A name stands for a symbol of the table. -/
theorem All.of_lookup (h : t.All P) {name : String} {symbol : Symbol}
    (hlookup : t.lookup name = .ok (some symbol)) : P symbol := by
  cases hcurrent : t.scope? t.current with
  | none =>
    rw [lookup, currentScope, hcurrent] at hlookup
    cases hlookup
  | some scope =>
    rw [lookup, currentScope_eq hcurrent] at hlookup
    have hfind : (scope.find? name).or (t.globals.find? name) = some symbol := Except.ok.inj hlookup
    rcases Option.or_eq_some_iff.1 hfind with hlocal | ⟨-, hglobal⟩
    · exact h scope (mem_scopes_of_scope? hcurrent) symbol (List.mem_of_find?_eq_some hlocal)
    · exact h t.globals List.mem_cons_self symbol (List.mem_of_find?_eq_some hglobal)

/-- If all symbols have `P`, and those of a scope that is put into the table too, then all have
it. -/
theorem All.put (h : t.All P) {scope : Scope} (hscope : ∀ symbol ∈ scope.symbols, P symbol) :
    (t.put scope).All P := by
  -- a scope of the new table is the one that was put, or was there before
  have hall : ∀ s ∈ (t.put scope).scopes, s = scope ∨ s ∈ t.scopes := by
    intro s hs
    unfold SymbolTable.put at hs
    split at hs
    · exact (List.mem_cons.1 hs).imp_right (List.mem_cons_of_mem _)
    split at hs
    · rcases List.mem_cons.1 hs with rfl | hs
      · exact .inr List.mem_cons_self
      · obtain ⟨s', hs', rfl⟩ := List.mem_map.1 hs
        split
        · exact .inl rfl
        · exact .inr (List.mem_cons_of_mem _ hs')
    · have hend : s ∈ t.scopes ++ [scope] := hs
      rcases List.mem_append.1 hend with hold | hnew
      · exact .inr hold
      · exact .inl (List.mem_singleton.1 hnew)
  intro s hs
  rcases hall s hs with rfl | hs
  · exact hscope
  · exact h s hs

/-- Only symbols with `P` are added. -/
theorem Changes.all (h : t.Changes X P t') (hall : t.All P) : t'.All P := by
  induction h with
  | refl => exact hall
  | add hscope _ hsymbol _ ih =>
    refine ih (hall.put (List.forall_mem_append.2 ⟨?_, List.forall_mem_singleton.2 hsymbol⟩))
    exact hall _ (mem_scopes_of_scope? hscope)
  | opening _ _ ih => exact ih (hall.put (List.forall_mem_nil _))
  | turning _ ih => exact ih hall

end SymbolTable

/-- The type of the symbol and, if it is a function, its result are in `T`. -/
structure Symbol.Over (T : Ty → Prop) (s : Symbol) : Prop where
  type : T s.type
  result : ∀ signature, s.signature? = some signature → T signature.result

namespace Typing

open Pass

/-! ### Types of expressions -/

/-- The types of literals and of operations are in `T`, and `unknown` is not. -/
structure Resolved (T : Ty → Prop) : Prop where
  values : ∀ t ∈ Ty.values, T t
  unknown : ¬ T .unknown

section

variable {T : Ty → Prop} (hT : Resolved T)

include hT

theorem Resolved.arithmetic (l r : Ty) : T (l.arithmetic r) := by
  refine hT.values _ ?_
  unfold Ty.arithmetic
  split <;> decide

theorem Resolved.bool : T .bool :=
  hT.values .bool (by decide)

/-! ### Operations -/

theorem settles_unaryType (op : String) {t : Ty} (ht : T t) (pos : Pos) :
    (unaryType op t pos).Settles T (· = .unknown) := by
  unfold unaryType
  split
  · exact settles_bind fun _ => settles_pure ht
  split
  · exact settles_bind fun _ => settles_pure hT.bool
  · exact settles_write_pure _ rfl

/-- An operator passes `unknown` on or swallows it. -/
theorem makes_unaryType_unknown (op : String) (pos : Pos) :
    (unaryType op .unknown pos).Makes (fun _ => True) fun t => T t ∨ t = .unknown := by
  unfold unaryType
  split
  · exact makes_bind fun _ => makes_pure (.inr rfl)
  split
  · exact makes_bind fun _ => makes_pure (.inl hT.bool)
  · exact makes_bind fun _ => makes_pure (.inr rfl)

/-- `binaryType` of known operands is known, or something is reported. -/
theorem settles_binaryType (op : String) {l r : Ty} (hl : T l) (hr : T r) (pos : Pos) :
    (binaryType op l r pos).Settles T (· = .unknown) := by
  have hresolved : (l == .unknown || r == .unknown) = false := by
    have hne : ∀ t, T t → t ≠ .unknown := fun t ht h => hT.unknown (h ▸ ht)
    simp [hne l hl, hne r hr]
  unfold binaryType
  simp only [hresolved, Bool.false_eq_true, if_false]
  split
  · exact settles_bind fun _ => settles_pure (hT.arithmetic l r)
  iterate 3
    split
    · exact settles_bind fun _ => settles_pure hT.bool
  · exact settles_write_pure _ rfl

theorem makes_binaryType (op : String) (l r : Ty) (pos : Pos) :
    (binaryType op l r pos).Makes (fun _ => True) fun t => T t ∨ t = .unknown := by
  unfold binaryType
  dsimp only
  split
  · split
    · exact makes_pure (.inr rfl)
    · exact makes_bind fun _ => makes_pure (.inl (hT.arithmetic l r))
  iterate 3
    split
    · exact makes_bind fun _ => makes_pure (.inl hT.bool)
  · exact makes_bind fun _ => makes_pure (.inr rfl)

/-! ### Names and calls -/

variable {table : SymbolTable} (h : table.All (Symbol.Over T))

omit hT
include h

/-- A name is looked up and stands for nothing, or for a symbol with types in `T`. -/
theorem settles_lookup_bind {α : Type} {P Q : α → Prop} {name : String}
    {f : Option Symbol → Inference α} (hnone : (f none).Settles P Q)
    (hsome : ∀ symbol : Symbol, symbol.Over T → (f (some symbol)).Settles P Q) :
    (Pass.ofExcept (table.lookup name) >>= f).Settles P Q := by
  cases hlookup : table.lookup name with
  | error e => exact settles_fail e
  | ok found =>
    rw [ofExcept_ok, pure_bind]
    cases found with
    | none => exact hnone
    | some symbol => exact hsome symbol (h.of_lookup hlookup)

theorem settles_variableType (x : String) (pos : Pos) (undefined misused : TypingCause) :
    (variableType table x pos undefined misused).Settles T (· = .unknown) := by
  refine settles_lookup_bind h (settles_write_pure _ rfl) fun symbol hsymbol => ?_
  dsimp only
  split
  · exact settles_write_pure _ rfl
  · exact settles_pure hsymbol.type

/-- `calleeSignature` finds a known result, or something is reported. -/
theorem settles_calleeSignature (callee : Node) (pos : Pos) :
    (calleeSignature table callee pos).Settles
      (fun target => ∃ name signature, target = some (name, signature) ∧ T signature.result)
      (· = none) := by
  cases callee with
  | ident name calleePos =>
    refine settles_lookup_bind h (settles_write_pure _ rfl) fun symbol hsymbol => ?_
    dsimp only
    cases hsignature : symbol.signature? with
    | none => exact settles_write_pure _ rfl
    | some signature => exact settles_pure ⟨_, _, rfl, hsymbol.result signature hsignature⟩
  | _ => exact settles_write_pure _ rfl

omit h

theorem settles_callType {signature : Signature} (hresult : T signature.result) (name : String)
    (positions : List Pos) (types : List Ty) (pos : Pos) :
    (callType name signature positions types pos).Settles T (· = .unknown) := by
  unfold callType
  dsimp only
  split <;> exact settles_bind fun _ => settles_pure hresult

/-! ### Expressions -/

include hT h

/-- If all symbols have types in `T` then so do expressions, except for those of type `unknown`.
Such an expression has been reported, or one of its parts has. -/
theorem settles_infer : ∀ n : Node, (infer table n).Settles T (· = .unknown)
  | .literal kind text pos => by
    rw [infer]
    refine settles_pure (hT.values _ ?_)
    cases kind <;> decide
  | .ident name pos => settles_variableType h name pos _ _
  | .unary op e pos => by
    rw [infer]
    refine (settles_infer e).bind (fun t ht => settles_unaryType hT op ht pos) fun t ht => ?_
    rw [ht]
    exact makes_unaryType_unknown hT op pos
  | .binary op l r pos => by
    rw [infer]
    refine (settles_infer l).bind (fun left hleft => ?_) fun left _ =>
      makes_bind fun right => makes_binaryType hT op left right pos
    exact (settles_infer r).bind (fun right hright => settles_binaryType hT op hleft hright pos)
      fun right _ => makes_binaryType hT op left right pos
  | .call callee args pos => by
    rw [infer]
    refine (settles_calleeSignature h callee pos).bind ?_ ?_
    · rintro target ⟨name, signature, rfl, hresult⟩
      exact settles_bind fun types => settles_callType hresult name _ types pos
    · rintro target rfl
      exact makes_bind fun types => makes_pure (.inr rfl)
  | .assign target e pos => by
    rw [infer]
    refine settles_bind fun name => (settles_variableType h name target.pos _ _).bind
      (fun expected hexpected => ?_) fun expected hexpected => ?_
    · exact settles_bind fun _ => settles_bind fun _ => settles_pure hexpected
    · exact makes_bind fun _ => makes_bind fun _ => makes_pure (.inr hexpected)
  | .program .. | .function .. | .params .. | .param .. | .block .. | .declare .. | .conditional ..
  | .loop ..
  | .ret .. | .expr .. | .absent => settles_fail _

end

/-! ### The walk -/

/-- `check` gives statements, functions and programs no value. -/
theorem makes_check {n : Node} (h : checked n = true) :
    (check n).Makes (fun _ => True) (· = .void) := by
  cases n with
  | program | block | ret | expr =>
    rw [check]
    exact makes_bind fun _ => makes_pure rfl
  | function =>
    rw [check]
    exact makes_bind fun _ => makes_bind fun _ => makes_bind fun _ => makes_bind fun _ =>
      makes_pure rfl
  | declare =>
    rw [check]
    refine makes_bind fun _ => ?_
    split
    · exact makes_pure rfl
    · exact makes_bind fun _ => makes_bind fun _ => makes_pure rfl
  | conditional =>
    rw [check]
    refine makes_bind fun _ => makes_bind fun _ => ?_
    split
    · exact makes_pure rfl
    · exact makes_bind fun _ => makes_pure rfl
  | loop =>
    rw [check]
    exact makes_bind fun _ => makes_bind fun _ => makes_pure rfl
  | _ => cases h

/-- `typeOf` finds a known type, or something has been reported. -/
theorem settled_typeOf {T : Ty → Prop} (hT : Resolved T) {c : Context}
    (h : c.table.All (Symbol.Over T)) (n : Node) {t : Ty} (ht : (typeOf n c).value = .ok t) :
    T t ∨ t = .unknown ∧ (typeOf n c).log ≠ [] := by
  rw [typeOf_apply] at ht ⊢
  exact settles_infer hT h n () t ht

/-- What a `Task` gives is in `T`, or is `unknown` and has been reported. -/
theorem Task.settled {T : Ty → Prop} (hT : Resolved T) (hvoid : T .void) {c : Context}
    (h : c.table.All (Symbol.Over T)) (k : Task) {t : Ty} (ht : (k.pass c).value = .ok t) :
    T t ∨ t = .unknown ∧ (k.pass c).log ≠ [] := by
  cases k with
  | type n => exact settled_typeOf hT h n ht
  | visit n =>
    cases hn : checked n with
    | true =>
      obtain rfl := (makes_check hn c).2 t ht
      exact .inl hvoid
    | false =>
      rw [pass, check_eq_typeOf hn] at ht ⊢
      exact settled_typeOf hT h n ht

/-- The symbols that a task declares. -/
def Task.symbols : Task → List Symbol
  | visit n => n.symbols
  | type _ => []

/-- All symbols that there are, and all that the task declares, have `P`. -/
structure Task.Keeps (P : Symbol → Prop) (k : Task) (c : Context) : Prop where
  named : c.table.Named
  all : c.table.All P
  symbols : ∀ symbol ∈ k.symbols, P symbol

section

variable {P : Symbol → Prop} {k k' : Task} {c c' : Context}

theorem changes_of_eq {α : Type} {m : Checker α} {a : α} {log : List (Finding TypingCause)}
    (halters : c.Alters (fun _ => True) P (m c).state) (hm : m c = ⟨.ok a, log, c'⟩) :
    c.table.Changes (fun _ => True) P c'.table := by
  rw [hm] at halters
  exact halters.changes

/-- In front of its body, a function declares itself and its parameters. -/
theorem changes_function {c₁ : Context} {result : Ty} {name scope : String} {ps : List Param}
    {pos : Pos} {log log' : List (Finding TypingCause)} (hnamed : c.table.Named)
    (hfunction : P ⟨name, result, .function ⟨ps, result⟩, pos⟩) (hps : ∀ p ∈ ps, P p.symbol)
    (hdeclare : declareFunction name ⟨ps, result⟩ pos c = ⟨.ok scope, log, c₁⟩)
    (lead : declareParams ps (c₁.entered result ⟨scope, some SymbolTable.globalName, []⟩) =
      ⟨.ok (), log', c'⟩) :
    c.table.Changes (fun _ => True) P c'.table := by
  have hentered : c.table.Changes (fun _ => True) P
      (c₁.entered result ⟨scope, some SymbolTable.globalName, []⟩).table :=
    (changes_of_eq (alters_declareFunction hnamed hfunction) hdeclare).trans
      (.opening trivial (.turning .refl))
  exact hentered.trans (changes_of_eq (alters_declareParams (hentered.named hnamed) hps) lead)

/-- What is checked in front of a tree declares symbols with `P`, if all of the trees do. -/
theorem changes_before {before after : List Node} {n : Node} {log : List (Finding TypingCause)}
    (hnamed : c.table.Named) (hP : ∀ symbol ∈ Node.symbolsAll (before ++ n :: after), P symbol)
    (lead : checkAll before c = ⟨.ok (), log, c'⟩) :
    c.table.Changes (fun _ => True) P c'.table ∧ ∀ symbol ∈ n.symbols, P symbol := by
  rw [Node.symbolsAll_append] at hP
  obtain ⟨hbefore, hrest⟩ := List.forall_mem_append.1 hP
  obtain ⟨hn, -⟩ := List.forall_mem_append.1 hrest
  exact ⟨changes_of_eq (alters_checkAll before c hnamed (fun _ _ _ _ _ _ _ _ _ => trivial) hbefore)
    lead, hn⟩

/-- If the first task keeps to symbols with `P` then so does the second. -/
theorem Task.Step.keeps (h : Step k c k' c') (hk : k.Keeps P c) : k'.Keeps P c' := by
  obtain ⟨hnamed, hall, hsymbols⟩ := hk
  -- the table has only been changed by symbols with `P`
  have moved : ∀ {k' : Task} {c' : Context}, c.table.Changes (fun _ => True) P c'.table →
      (∀ symbol ∈ k'.symbols, P symbol) → k'.Keeps P c' :=
    fun hchanges hk' => ⟨hchanges.named hnamed, hchanges.all hall, hk'⟩
  cases h with
  | function lead | statement lead =>
    obtain ⟨hchanges, hn⟩ := changes_before hnamed hsymbols lead
    exact moved hchanges hn
  | body hparams hdeclare lead =>
    rw [symbols, Node.symbols, hparams] at hsymbols
    obtain ⟨hfunction, hrest⟩ := List.forall_mem_cons.1 hsymbols
    obtain ⟨hps, hbody⟩ := List.forall_mem_append.1 hrest
    exact moved (changes_function hnamed hfunction (List.forall_mem_map.1 hps) hdeclare lead) hbody
  | init lead =>
    have hsymbol := List.forall_mem_singleton.1 hsymbols
    exact moved (changes_of_eq (alters_declare hnamed hsymbol) lead) (List.forall_mem_nil _)
  | consequence lead =>
    obtain ⟨hbody, -⟩ := List.forall_mem_append.1 hsymbols
    exact moved (changes_of_eq (alters_typeOf_require hnamed _ _ _ _) lead) hbody
  | alternative hcond lead =>
    obtain ⟨hbody, halternative⟩ := List.forall_mem_append.1 hsymbols
    have hchanges := changes_of_eq (P := P) (alters_typeOf_require hnamed _ _ _ _) hcond
    have hchecked := alters_check _ _ (hchanges.named hnamed) (fun _ _ => trivial) hbody
    exact moved (hchanges.trans (changes_of_eq hchecked lead)) halternative
  | loopBody lead =>
    exact moved (changes_of_eq (alters_typeOf_require hnamed _ _ _ _) lead) hsymbols
  | condition | loopCondition | value | expr | itself | operand | left | right | argument
  | assigned =>
    exact moved .refl (List.forall_mem_nil _)

/-- What a task keeps, the tasks that the checker `Comes` to keep as well. -/
theorem Task.Comes.keeps (h : Comes k c k' c') (hk : k.Keeps P c) : k'.Keeps P c' := by
  induction h with
  | here => exact hk
  | step first _ ih => exact ih (first.keeps hk)

end

end Typing

/-! ### Programs -/

/-- The type of the symbol and, if it is a function, its result and the types of its parameters are
types of the language. -/
structure Symbol.Listed (s : Symbol) : Prop extends s.Over (· ∈ Ty.results) where
  params : ∀ signature, s.signature? = some signature → ∀ p ∈ signature.params, p.type ∈ Ty.results

theorem Ty.mem_results_of_mem_values {t : Ty} (h : t ∈ Ty.values) : t ∈ Ty.results :=
  (by decide : Ty.values ⊆ Ty.results) h

mutual

/-- A statement declares variables with the types of its declarations. -/
theorem Stmt.mem_bindings_of_mem_symbols : ∀ (s : Stmt), ∀ symbol ∈ s.toNode.symbols,
    symbol.signature? = none ∧ (symbol.name, symbol.type) ∈ s.bindings
  | .expr .., symbol, h => by cases h
  | .declare type name init pos, symbol, h => by
    obtain rfl := List.mem_singleton.1 h
    exact ⟨rfl, List.mem_singleton.2 rfl⟩
  | .ifThen cond body pos, symbol, h => by
    have hbody := (List.mem_append.1 h).resolve_right List.not_mem_nil
    exact body.mem_bindings_of_mem_symbols symbol hbody
  | .ifElse cond body alternative pos, symbol, h => by
    rcases List.mem_append.1 h with hbody | halternative
    · exact (body.mem_bindings_of_mem_symbols symbol hbody).imp_right (List.mem_append_left _)
    · exact (alternative.mem_bindings_of_mem_symbols symbol halternative).imp_right
        (List.mem_append_right _)
  | .loop cond body pos, symbol, h => body.mem_bindings_of_mem_symbols symbol h
  | .ret .., symbol, h => by cases h

theorem Block.mem_bindings_of_mem_symbols : ∀ (b : Block), ∀ symbol ∈ b.toNode.symbols,
    symbol.signature? = none ∧ (symbol.name, symbol.type) ∈ b.bindings
  | .mk statements _, symbol, h => Stmt.mem_bindingsAll_of_mem_symbolsAll statements symbol h

theorem Stmt.mem_bindingsAll_of_mem_symbolsAll : ∀ (ss : List Stmt),
    ∀ symbol ∈ Node.symbolsAll (Stmt.toNodes ss),
      symbol.signature? = none ∧ (symbol.name, symbol.type) ∈ Stmt.bindingsAll ss
  | [], symbol, h => by cases h
  | s :: ss, symbol, h => by
    rcases List.mem_append.1 h with hs | hss
    · exact (s.mem_bindings_of_mem_symbols symbol hs).imp_right (List.mem_append_left _)
    · exact (Stmt.mem_bindingsAll_of_mem_symbolsAll ss symbol hss).imp_right
        (List.mem_append_right _)

end

theorem Symbol.Listed.of_mem_values {s : Symbol} (hsignature : s.signature? = none)
    (htype : s.type ∈ Ty.values) : s.Listed := by
  have hnone : ∀ {Q : Signature → Prop}, ∀ signature, s.signature? = some signature →
      Q signature := by
    intro Q signature h
    rw [hsignature] at h
    cases h
  exact ⟨⟨Ty.mem_results_of_mem_values htype, hnone⟩, hnone⟩

theorem Function.Shaped.listed {f : Function} (h : f.Shaped) :
    ∀ symbol ∈ f.toNode.symbols, symbol.Listed := by
  rw [Function.toNode, Node.symbols, Typing.mapM_asParam]
  refine List.forall_mem_cons.2 ⟨⟨⟨h.result, ?_⟩, ?_⟩, List.forall_mem_append.2 ⟨?_, ?_⟩⟩
  · rintro signature hsignature
    obtain rfl := Option.some.inj hsignature
    exact h.result
  · rintro signature hsignature p hp
    obtain rfl := Option.some.inj hsignature
    exact Ty.mem_results_of_mem_values (h.params p hp)
  · exact List.forall_mem_map.2 fun p hp => .of_mem_values rfl (h.params p hp)
  · intro symbol hsymbol
    obtain ⟨hsignature, hbinding⟩ := f.body.mem_bindings_of_mem_symbols symbol hsymbol
    exact .of_mem_values hsignature (h.body.bindings _ hbinding)

theorem Node.forall_mem_symbolsAll {P : Symbol → Prop} {ns : List Node}
    (h : ∀ n ∈ ns, ∀ symbol ∈ n.symbols, P symbol) : ∀ symbol ∈ Node.symbolsAll ns, P symbol := by
  induction ns with
  | nil => exact List.forall_mem_nil _
  | cons n ns ih =>
    obtain ⟨hn, hns⟩ := List.forall_mem_cons.1 h
    exact List.forall_mem_append.2 ⟨hn, ih hns⟩

/-- The symbols of a program of known pieces are `Listed`. -/
theorem Program.listed {p : Program} (h : ∀ f ∈ p.functions, f.Shaped) :
    ∀ symbol ∈ p.toNode.symbols, symbol.Listed :=
  Node.forall_mem_symbolsAll (List.forall_mem_map.2 fun f hf => (h f hf).listed)

namespace Typing

/-- No `Task` of a program fails. -/
theorem Task.Comes.succeeds {p : Program} {k : Task} {c : Context}
    (h : Comes (visit p.toNode) .empty k c) : ∃ t, (k.pass c).value = .ok t := by
  cases hvalue : (k.pass c).value with
  | ok t => exact ⟨t, rfl⟩
  | error e =>
    have hcheck : (check p.toNode .empty).value = .error e := h.within.failure e hvalue
    have hfault := (analyze_apply p).1
    simp only [analyze, hcheck] at hfault
    cases hfault

/-- Behind `analyze`, the symbols are those that there are from the beginning, and what the program
declares. -/
theorem all_analyze {P : Symbol → Prop} {p : Program} (h : ∀ symbol ∈ p.toNode.symbols, P symbol) :
    (analyze p).table.All P :=
  (alters_check (X := fun _ => True) p.toNode .empty rfl (fun _ _ => trivial) h).changes.all
    SymbolTable.all_empty

/-- What a program gives on the way is a type of the language or is `unknown`, and `unknown` leaves
a finding behind. -/
theorem Task.Comes.listed {p : Program} {k : Task} {c : Context}
    (h : Comes (visit p.toNode) .empty k c) (hall : c.table.All Symbol.Listed) :
    ∃ t, (k.pass c).value = .ok t ∧ t ∈ Ty.unknown :: Ty.results ∧
      ((analyze p).findings = [] → t ≠ .unknown) := by
  have hT : Resolved (· ∈ Ty.results) := ⟨fun _ => Ty.mem_results_of_mem_values, by decide⟩
  obtain ⟨t, ht⟩ := h.succeeds
  refine ⟨t, ht, ?_⟩
  rcases k.settled hT (by decide) (hall.mono fun _ hsymbol => hsymbol.toOver) ht with
    hlisted | ⟨rfl, hlog⟩
  · exact ⟨List.mem_cons_of_mem _ hlisted, fun _ => ne_unknown_of_mem_results hlisted⟩
  · refine ⟨List.mem_cons_self, fun hclean => absurd ?_ hlog⟩
    have hinfix : (k.pass c).log <:+: (analyze p).findings := h.within.log
    rw [hclean] at hinfix
    exact List.infix_nil.1 hinfix

/-- Where no symbol is `unknown`, an expression of type `unknown` is reported. For a program that
was found in a source text, there is no such symbol wherever the checker `Comes` to, and none in the
end. Everything that the checker is asked for on the way has a type of the language, or is
`unknown`, and if there is no finding in the end then nothing was. -/
theorem unknown_explained :
    (∀ (n : Node) (c : Context), c.table.All (Symbol.Over (· ≠ .unknown)) →
        (typeOf n c).value = .ok .unknown → (typeOf n c).log ≠ []) ∧
      ∀ source : String,
        (∀ k c, Task.Comes (.visit (parse (scan source).1).1.toNode) .empty k c →
          c.table.All Symbol.Listed ∧
            ∃ t, (k.pass c).value = .ok t ∧ t ∈ Ty.unknown :: Ty.results ∧
              ((analyze (parse (scan source).1).1).findings = [] → t ≠ .unknown)) ∧
          (analyze (parse (scan source).1).1).table.All Symbol.Listed := by
  refine ⟨fun n c hc hn => ?_, fun source => ?_⟩
  · have hT : Resolved (· ≠ .unknown) := ⟨by decide, fun h => h rfl⟩
    exact (settled_typeOf hT hc n hn).elim (absurd rfl) And.right
  · have hlisted := Program.listed (shaped_parse source)
    refine ⟨fun k c hcomes => ?_, all_analyze hlisted⟩
    have hkeeps := hcomes.keeps ⟨rfl, SymbolTable.all_empty, hlisted⟩
    exact ⟨hkeeps.all, hcomes.listed hkeeps.all⟩

/-- A context with one variable. -/
def oneVariable : Context :=
  ⟨⟨⟨"global", none, [⟨"x", .int, .var, ⟨1, 1⟩⟩]⟩, [], "global"⟩, none, []⟩

/-- `x + -y`: the operators pass on that `y` is unknown. -/
def unresolvedSum : Node :=
  .binary "+" (.ident "x" ⟨2, 1⟩) (.unary "-" (.ident "y" ⟨2, 6⟩) ⟨2, 5⟩) ⟨2, 3⟩

/-- The comparison in `bool f(int a) { return a < 1; }`. -/
def comparison : Node :=
  .binary "<" (.ident "a" ⟨1, 24⟩) (.literal .int "1" ⟨1, 28⟩) ⟨1, 26⟩

/-- The sum is unknown and reported. In a program without findings the checker `Comes` to the
`comparison`, which has a type. -/
theorem unknown_explained_comparison :
    ((typeOf unresolvedSum oneVariable).value = .ok .unknown ∧
        (typeOf unresolvedSum oneVariable).log ≠ []) ∧
      ∃ c, Task.Comes (.visit (parse (scan "bool f(int a) \x7b return a < 1; \x7d").1).1.toNode)
          .empty (.type comparison) c ∧
        ∃ t, (typeOf comparison c).value = .ok t ∧ t ≠ .unknown := by
  obtain ⟨hreported, hwalk⟩ := unknown_explained
  refine ⟨⟨rfl, hreported unresolvedSum oneVariable ?_ rfl⟩, ?_⟩
  · refine List.forall_mem_singleton.2
      (List.forall_mem_singleton.2 ⟨by decide, fun signature h => ?_⟩)
    cases h
  · have hparse : (parse (scan "bool f(int a) \x7b return a < 1; \x7d").1).1.toNode =
        .program [.function .bool "f" [.param .int "a" ⟨1, 8⟩]
          (.block [.ret comparison ⟨1, 17⟩] ⟨1, 15⟩) ⟨1, 1⟩] ⟨1, 1⟩ := rfl
    have hcomes :
        ∃ c, Task.Comes (.visit (parse (scan "bool f(int a) \x7b return a < 1; \x7d").1).1.toNode)
        .empty (.type comparison) c := by
      rw [hparse]
      exact ⟨_, .step (@Task.Step.function [] [] _ _ _ _ _ rfl) (.step (.body rfl rfl rfl)
        (.step (@Task.Step.statement [] [] _ _ _ _ _ rfl) (.step (.value rfl) .here)))⟩
    obtain ⟨c, hc⟩ := hcomes
    obtain ⟨-, t, ht, -, hclean⟩ := (hwalk _).1 _ c hc
    exact ⟨c, hc, t, ht, hclean (by decide +kernel)⟩

end Typing

end Tricode
