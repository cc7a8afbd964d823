import Tricode.Typing.Session
import Tricode.Proofs.Typing.Alterations

/-!
# Calls restore what they change

A function that is declared inside a statement, at any depth, has a scope and a return type of its
own, and its body may fail. Whatever the tree is and however the call ends, the scope that is
current and the return type are then what they were, and findings have only been added. Typing an
expression changes nothing else either.

Checking changes scopes, but no scope loses a symbol (`Scope.Extends`), with one exception: the
scope of a function that the call came to is opened anew, also if there was a scope of this name,
and even if that was the current one. `Session.context_restored` says this for all sessions.
-/

namespace Tricode

/-! ### Scopes that are kept -/

/-- The scope `s'` is the scope `s` with further symbols with `P` behind its own. What a name stands
for in `s` it stands for in `s'`. -/
structure Scope.Extends (P : Symbol → Prop) (s s' : Scope) : Prop where
  name : s'.name = s.name
  parent : s'.parent = s.parent
  symbols : s.symbols <+: s'.symbols
  added : ∀ symbol ∈ s'.symbols, symbol ∈ s.symbols ∨ P symbol
  bindings : ∀ x symbol, s.find? x = some symbol → s'.find? x = some symbol

namespace Scope.Extends

variable {P : Symbol → Prop} {s s' s'' : Scope}

theorem refl (s : Scope) : s.Extends P s :=
  ⟨rfl, rfl, List.prefix_refl _, fun _ h => .inl h, fun _ _ h => h⟩

theorem trans (h : s.Extends P s') (h' : s'.Extends P s'') : s.Extends P s'' where
  name := h'.name.trans h.name
  parent := h'.parent.trans h.parent
  symbols := h.symbols.trans h'.symbols
  added symbol hsymbol := (h'.added symbol hsymbol).elim (h.added symbol) .inr
  bindings x symbol hx := h'.bindings x symbol (h.bindings x symbol hx)

theorem insert (s : Scope) {symbol : Symbol} (h : P symbol) : s.Extends P (s.insert symbol) where
  name := rfl
  parent := rfl
  symbols := List.prefix_append _ _
  added symbol' hsymbol := by
    refine (List.mem_append.1 hsymbol).imp_right fun hnew => ?_
    rwa [List.mem_singleton.1 hnew]
  bindings x symbol' hx := by
    rw [find?] at hx
    rw [find?, Scope.insert, List.find?_append, hx, Option.some_or]

end Scope.Extends

namespace SymbolTable

variable {X : String → Prop} {P : Symbol → Prop} {t t' : SymbolTable}

/-- In a table that `Changes`, scopes do not get lost, and one that has not been opened anew has
kept its symbols. -/
theorem Changes.scope? (h : t.Changes X P t') (hnamed : t.Named) {name : String} {scope : Scope}
    (hscope : t.scope? name = some scope) :
    ∃ scope', t'.scope? name = some scope' ∧
      (scope.Extends P scope' ∨ X name ∧ Scope.Extends P ⟨name, some globalName, []⟩ scope') := by
  induction h generalizing scope with
  | refl => exact ⟨scope, hscope, .inl (.refl scope)⟩
  | @add t t' other symbol hother _ hsymbol _ ih =>
    -- the symbol is added to this scope, or to another one
    by_cases hname : name = other.name
    · obtain rfl : other = scope := by
        rw [hname, hother] at hscope
        exact Option.some.inj hscope
      have hput : (t.put (other.insert symbol)).scope? name = some (other.insert symbol) :=
        hname ▸ t.scope?_put_self (other.insert symbol)
      obtain ⟨scope', hscope', hextends | hopened⟩ := ih (hnamed.put _) hput
      · exact ⟨scope', hscope', .inl ((Scope.Extends.insert other hsymbol).trans hextends)⟩
      · exact ⟨scope', hscope', .inr hopened⟩
    · have hput : (t.put (other.insert symbol)).scope? name = t.scope? name :=
        t.scope?_put_of_ne hname
      exact ih (hnamed.put _) (hput.trans hscope)
  | @opening t t' opened hX _ ih =>
    -- this scope is opened anew, or another one
    by_cases hname : name = opened
    · subst hname
      obtain ⟨scope', hscope', hextends | hopened⟩ :=
        ih (hnamed.put _) (t.scope?_put_self ⟨name, some globalName, []⟩)
      · exact ⟨scope', hscope', .inr ⟨hX, hextends⟩⟩
      · exact ⟨scope', hscope', .inr hopened⟩
    · exact ih (hnamed.put _) ((t.scope?_put_of_ne hname).trans hscope)
  | turning _ ih => exact ih hnamed hscope

end SymbolTable

namespace Typing

open Pass

namespace Session

/-! ### Sessions -/

/-- A session has come here by calls, in any order and with any answers. Scopes with any symbols may
have been put in by hand as well. -/
inductive Reached : Session → Prop where
  | empty : Reached Session.empty
  | call {s : Session} (c : Call) (earlier : Reached s) : Reached (s.call c).2
  | put {s : Session} (scope : Scope) (earlier : Reached s) :
    Reached { s with context.table := s.context.table.put scope }

/-- Whatever a `call` does to the table, the global scope keeps its name. -/
theorem named_call {s : Session} (hnamed : s.context.table.Named) (c : Call) :
    (s.call c).2.context.table.Named := by
  have hcheck : ∀ n, s.context.Alters (fun _ => True) (fun _ => True) (check n s.context).state :=
    fun n => alters_check n s.context hnamed (fun _ _ => trivial) fun _ _ => trivial
  -- whatever alters the table leaves the name of the global scope
  have kept : ∀ {m : Checker Answer},
      s.context.Alters (fun _ => True) (fun _ => True) (m s.context).state →
        (m s.context).state.table.Named :=
    fun h => h.changes.named hnamed
  cases c with
  | analyze n =>
    exact kept (alters_bind hnamed (alters_discard (hcheck n)) fun _ _ c' _ _ => .refl c')
  | check n => exact kept (alters_bind_pure (hcheck n) _)
  | infer n => exact kept (alters_bind_pure (alters_typeOf n _) _)
  | declare name type role pos => exact kept (alters_bind_pure (alters_declare hnamed trivial) _)
  | lookup name =>
    refine kept (alters_bind hnamed (.refl _) fun context _ c' _ hnamed' => ?_)
    refine alters_bind_pure ?_ _
    cases context.table.lookup name <;> exact .refl c'
  | openScope name => exact hnamed.put _
  | enter name => exact hnamed
  | setReturnType type => exact hnamed
  | assignable expected actual => exact hnamed
  | table => exact hnamed
  | listing => exact hnamed

/-- In a `Session` that was `Reached`, the global scope has its name. -/
theorem Reached.named {s : Session} (h : Reached s) : s.context.table.Named := by
  induction h with
  | empty => rfl
  | call c _ ih => exact named_call ih c
  | put scope _ ih => exact SymbolTable.Named.put ih scope

/-- The call `infer` changes nothing in the context. -/
theorem context_infer (s : Session) (n : Node) : (s.call (.infer n)).2.context = s.context := by
  have hstate : ((typeOf n >>= fun t => pure (Answer.type t)) s.context).state = s.context := by
    rw [state_bind_pure, typeOf_apply]
  exact hstate

/-- Whatever has been asked of a `Session`, so that it was `Reached`, and whether a call answers or
fails, the scope that is current and the return type are behind it what they were, and the findings
are there. Typing an expression changes nothing at all. Checking a tree keeps every scope and all
that names stand for in it: the scope behind it `Extends` the one before by symbols of the tree
only, unless the scope is that of a function that the checker came to, which it `Opens` anew. -/
theorem context_restored {s : Session} (h : Reached s) (n : Node) :
    ((s.call (.infer n)).2.context = s.context ∧ s.findings <+: (s.call (.infer n)).2.findings) ∧
      (s.call (.check n)).2.context.table.current = s.context.table.current ∧
      (s.call (.check n)).2.context.returnType = s.context.returnType ∧
      s.findings <+: (s.call (.check n)).2.findings ∧
      ∀ name scope, s.context.table.scope? name = some scope →
        ∃ scope', (s.call (.check n)).2.context.table.scope? name = some scope' ∧
          (scope.Extends (· ∈ n.symbols) scope' ∨
            Opens n s.context name ∧
              Scope.Extends (· ∈ n.symbols) ⟨name, some SymbolTable.globalName, []⟩ scope') := by
  have hnamed := h.named
  have halters : s.context.Alters (Opens n s.context) (· ∈ n.symbols)
      (s.call (.check n)).2.context :=
    alters_bind_pure (alters_check n s.context hnamed (fun _ h => h) fun _ h => h) _
  exact ⟨⟨context_infer s n, List.prefix_append _ _⟩, halters.current, halters.returnType,
    List.prefix_append _ _, fun name scope hscope => halters.changes.scope? hnamed hscope⟩

/-- A session in a scope that was opened by hand, with a return type that was set by hand. -/
def occupied : Session :=
  ((((Session.empty.call (.openScope "function_f")).2.call (.enter "function_f")).2.call
    (.declare "x" .int .var ⟨1, 1⟩)).2.call (.setReturnType (some .int))).2

/-- A function inside a block. An expression is missing in its body. -/
def unfinished : Node :=
  .block [.function .void "f" [.param .int "p" ⟨2, 8⟩]
    (.block [.declare .bool "y" .absent ⟨3, 1⟩, .expr .absent ⟨4, 1⟩] ⟨2, 15⟩) ⟨2, 1⟩] ⟨1, 1⟩

/-- In the `occupied` session, the function is checked in a scope of its own that takes the place of
the current one. The body fails, and the session is where it was, in a scope of the same name. -/
theorem context_restored_occupied :
    (occupied.call (.check unfinished)).1 = .error (.untyped none) ∧
      (occupied.call (.check unfinished)).2.context.table.current = "function_f" ∧
      (occupied.call (.check unfinished)).2.context.returnType = some .int ∧
      Opens unfinished occupied.context "function_f" := by
  have hreached : Reached occupied := .call _ (.call _ (.call _ (.call _ .empty)))
  obtain ⟨-, hcurrent, hreturn, -, hscopes⟩ := context_restored hreached unfinished
  refine ⟨rfl, hcurrent, hreturn, ?_⟩
  obtain ⟨scope', hscope', hkept | ⟨hopens, -⟩⟩ :=
    hscopes "function_f" ⟨"function_f", some "global", [⟨"x", .int, .var, ⟨1, 1⟩⟩]⟩ rfl
  · -- the scope would still have the symbol that was in it
    have hfind := hkept.bindings "x" ⟨"x", .int, .var, ⟨1, 1⟩⟩ rfl
    have hnow : ((occupied.call (.check unfinished)).2.context.table.scope? "function_f").bind
        (·.find? "x") = none := by decide +kernel
    rw [hscope', Option.bind_some, hfind] at hnow
    cases hnow
  · exact hopens

end Session

end Typing

end Tricode
