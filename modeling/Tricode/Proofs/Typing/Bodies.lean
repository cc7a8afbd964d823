import Tricode.Proofs.Typing.Scopes

/-!
# Bodies are checked one by one

The body of a function matters to nobody but the function. If it is replaced, the checker still
reports the same about every other function while it visits it, gives every other function the same
scope, and fills the global scope as before (`analyze_setBody`).

That is so since the checker passes little on from one function to the next: what it reports on a
visit depends on the global scope and on the numbers of the declarations, and both are made from the
symbols of the functions, which do not show their bodies (`Typing.alike_visiting`). The scope of the
`j`-th function is the `j`-th in the table behind the global one, and it shows only how many
functions of the same name stand in front of it (`Function.scopeBehind_congr`).
-/

namespace Tricode

namespace Program

/-! ### Replacing a body -/

/-- The program with another body for its `i`-th function. -/
def setBody (p : Program) (i : Nat) (body : Block) : Program :=
  { p with functions := p.functions.modify i fun f => { f with body := body } }

section

variable (p : Program) (i : Nat) (body : Block)

theorem length_functions_setBody : (p.setBody i body).functions.length = p.functions.length :=
  List.length_modify ..

theorem getElem?_functions_setBody {j : Nat} (h : j ≠ i) :
    (p.setBody i body).functions[j]? = p.functions[j]? :=
  List.getElem?_modify_ne _ _ h.symm

/-- What does not show the bodies is the same. -/
theorem map_functions_setBody {β : Type} {g : Function → β}
    (hg : ∀ f : Function, g { f with body := body } = g f) :
    (p.setBody i body).functions.map g = p.functions.map g := by
  refine List.ext_getElem? fun j => ?_
  have hsame : ∀ f : Function, g (if i = j then { f with body := body } else f) = g f := by
    intro f
    split
    · exact hg f
    · rfl
  rw [List.getElem?_map, List.getElem?_map, setBody, List.getElem?_modify, Option.map_eq_map,
    Option.map_map]
  exact congrArg (Option.map · p.functions[j]?) (funext hsame)

/-- The symbols of functions do not show the bodies. -/
theorem map_symbol_setBody :
    (p.setBody i body).functions.map Function.symbol = p.functions.map Function.symbol :=
  p.map_functions_setBody i body fun _ => rfl

end

/-! ### The visits of a program -/

/-- The context in which the checker comes to the `j`-th function. -/
def contextAt (p : Program) (j : Nat) : Typing.Context :=
  (Typing.checkAll ((p.functions.take j).map Function.toNode) .empty).state

/-- What the checker reports while it visits the `j`-th function. -/
def findingsAt (p : Program) (j : Nat) : List (Finding TypingCause) :=
  p.functions[j]?.elim [] fun f => (Typing.check f.toNode (p.contextAt j)).log

end Program

namespace Typing

theorem onlyFunctions_foldl_visiting (fs : List Function) :
    OnlyFunctions (fs.foldl Context.visiting .empty).table.globals := by
  induction fs using List.reverseRecOn with
  | nil => exact onlyFunctions_empty
  | append_singleton fs f ih =>
    rw [List.foldl_append]
    exact onlyFunctions_visiting ih f

end Typing

theorem Program.contextAt_eq (p : Program) (j : Nat) :
    p.contextAt j = (p.functions.take j).foldl Typing.Context.visiting .empty := by
  obtain ⟨log, hcheck, -⟩ :=
    Typing.checkAll_functions_visiting (p.functions.take j) .empty Typing.onlyFunctions_empty
  rw [Program.contextAt, hcheck]

/-- What is reported about the first functions is what is reported on the visits to them,
`findingsAt`. -/
theorem Program.log_checkAll_take (p : Program) (n : Nat) :
    (Typing.checkAll ((p.functions.take n).map Function.toNode) .empty).log =
      (List.range n).flatMap p.findingsAt := by
  induction n with
  | zero => rfl
  | succ n ih =>
    rw [List.range_succ, List.flatMap_append, List.flatMap_singleton, ← ih, List.take_add_one,
      List.map_append, Typing.checkAll_append, Program.findingsAt]
    -- the visits before this one come to an end, and leave the context of this one
    obtain ⟨log, hcheck, -⟩ :=
      Typing.checkAll_functions_visiting (p.functions.take n) .empty Typing.onlyFunctions_empty
    cases p.functions[n]? with
    | none =>
      rw [Pass.bind_eq hcheck rfl, hcheck]
      rfl
    | some f =>
      obtain ⟨log', -, hvisit⟩ := Typing.check_function_visiting
        (Typing.onlyFunctions_foldl_visiting (p.functions.take n)) _ f
      have hvisit := hvisit _ rfl rfl
      rw [Pass.bind_eq hcheck (Pass.bind_eq (Pass.discard_eq hvisit) rfl), hcheck, Option.elim,
        p.contextAt_eq, hvisit, List.append_nil]

/-- Everything that `analyze` reports is reported on the visit to a function. -/
theorem Program.findings_analyze (p : Program) :
    (analyze p).findings = (List.range p.functions.length).flatMap p.findingsAt := by
  obtain ⟨log, hcheck, -⟩ :=
    Typing.checkAll_functions_visiting p.functions .empty Typing.onlyFunctions_empty
  have hlog := p.log_checkAll_take p.functions.length
  rw [List.take_length, hcheck] at hlog
  rw [analyze_eq hcheck, ← hlog]

/-! ### What a visit passes on -/

namespace Typing

/-- The contexts have the same global scope, and the same functions have been declared again as
often. -/
structure Context.Alike (context context' : Context) : Prop where
  globals : context.table.globals = context'.table.globals
  declarations : context.declarations = context'.declarations

variable {context context' : Context}

/-- A visit, `visiting`, passes on what the symbol of the function shows. -/
theorem alike_visiting (h : context.Alike context') {f g : Function}
    (hsymbol : f.symbol = g.symbol) :
    (context.visiting f).Alike (context'.visiting g) := by
  have hname : f.name = g.name := congrArg Symbol.name hsymbol
  constructor
  · rw [context.globals_visiting, context'.globals_visiting, h.globals, hsymbol]
  · show (context.declaring f).declarations = (context'.declaring g).declarations
    unfold Context.declaring Context.number
    rw [hname, h.globals, h.declarations]
    split <;> rfl

/-- Visits to functions with the same symbols pass on the same. -/
theorem alike_foldl_visiting {fs gs : List Function} (h : context.Alike context')
    (hsymbols : fs.map Function.symbol = gs.map Function.symbol) :
    (fs.foldl Context.visiting context).Alike (gs.foldl Context.visiting context') := by
  induction fs generalizing context context' gs with
  | nil =>
    obtain rfl : gs = [] := List.map_eq_nil_iff.1 hsymbols.symm
    exact h
  | cons f fs ih =>
    cases gs with
    | nil => cases hsymbols
    | cons g gs =>
      obtain ⟨hsymbol, hsymbols⟩ := List.cons.inj hsymbols
      rw [List.foldl_cons, List.foldl_cons]
      exact ih (alike_visiting h hsymbol) hsymbols

/-- In contexts that are `Alike`, the same is reported about a function. -/
theorem Context.Alike.log_check_eq (h : context.Alike context')
    (honly : OnlyFunctions context.table.globals) (f : Function) :
    (check f.toNode context).log = (check f.toNode context').log := by
  obtain ⟨log, -, hvisit⟩ := check_function_visiting honly context.declarations f
  rw [hvisit context rfl rfl, hvisit context' h.globals.symm h.declarations.symm]

end Typing

/-! ### Replacing a body changes one visit -/

section

variable (p : Program) (i : Nat) (body : Block)

theorem Program.alike_contextAt_setBody (j : Nat) :
    ((p.setBody i body).contextAt j).Alike (p.contextAt j) := by
  rw [Program.contextAt_eq, Program.contextAt_eq]
  refine Typing.alike_foldl_visiting ⟨rfl, rfl⟩ ?_
  rw [List.map_take, p.map_symbol_setBody, List.map_take]

/-- With `setBody`, the same is reported on visits to other functions. -/
theorem Program.findingsAt_setBody {j : Nat} (h : j ≠ i) :
    (p.setBody i body).findingsAt j = p.findingsAt j := by
  have halike := p.alike_contextAt_setBody i body j
  have honly : Typing.OnlyFunctions ((p.setBody i body).contextAt j).table.globals := by
    rw [Program.contextAt_eq]
    exact Typing.onlyFunctions_foldl_visiting _
  unfold Program.findingsAt
  rw [p.getElem?_functions_setBody i body h]
  cases p.functions[j]? with
  | none => rfl
  | some f => exact halike.log_check_eq honly f

/-- With `setBody`, the global scope is the same. -/
theorem globals_analyze_setBody :
    (analyze (p.setBody i body)).table.globals = (analyze p).table.globals := by
  rw [(analyze_visiting _).1, (analyze_visiting p).1, Typing.globals_foldl_visiting,
    p.map_symbol_setBody, Typing.globals_foldl_visiting]

/-- The scope of a function shows how often its name has been declared before, and nothing else
about the functions in front of it. -/
theorem Function.scopeBehind_congr {before before' : List Function}
    (h : before.map Function.name = before'.map Function.name) (f : Function) :
    f.scopeBehind before = f.scopeBehind before' := by
  have hcount : ∀ fs : List Function,
      Function.count f.name fs = (fs.map Function.name).countP (· == f.name) := by
    intro fs
    rw [List.countP_map]
    rfl
  unfold Function.scopeBehind
  rw [hcount, hcount, h]

/-- With `setBody`, the scopes of other functions are the same. -/
theorem locals_analyze_setBody (hp : ∀ f ∈ p.functions, f.Unnumbered) {j : Nat} (h : j ≠ i) :
    (analyze (p.setBody i body)).table.locals[j]? = (analyze p).table.locals[j]? := by
  have hnames : (p.setBody i body).functions.map Function.name = p.functions.map Function.name :=
    p.map_functions_setBody i body fun _ => rfl
  have hset : ∀ f ∈ (p.setBody i body).functions, f.Unnumbered := by
    intro f hf
    have hmem : f.name ∈ p.functions.map Function.name := hnames ▸ List.mem_map_of_mem hf
    obtain ⟨g, hg, hname⟩ := List.mem_map.1 hmem
    unfold Function.Unnumbered
    rw [← hname]
    exact hp g hg
  -- the functions in front have the same names, and only names show in scopes
  have hbefore : ((p.setBody i body).functions.take j).map Function.name =
      (p.functions.take j).map Function.name := by
    rw [List.map_take, hnames, List.map_take]
  rw [(analyze_visiting _).1, (analyze_visiting p).1, Typing.locals_visiting hset,
    Typing.locals_visiting hp, Function.getElem?_scopesBehind, Function.getElem?_scopesBehind,
    p.getElem?_functions_setBody i body h]
  exact congrArg (Option.map · p.functions[j]?) (funext (Function.scopeBehind_congr hbefore))

end

/-- If the body of a function is replaced, as by `setBody`, the global scope stays what it is, as do
the scopes of the other functions and what is reported on the visits to them, `findingsAt`; and
everything that is reported is reported on a visit. -/
theorem analyze_setBody (source : String) (i : Nat) (body : Block) :
    let p := (parse (scan source).1).1
    let q := p.setBody i body
    (analyze q).table.globals = (analyze p).table.globals ∧
      (∀ j, j ≠ i → q.findingsAt j = p.findingsAt j ∧
        (analyze q).table.locals[j]? = (analyze p).table.locals[j]?) ∧
      (analyze q).findings = (List.range p.functions.length).flatMap fun j =>
        if j = i then q.findingsAt j else p.findingsAt j := by
  intro p q
  refine ⟨globals_analyze_setBody p i body, fun j hj => ⟨p.findingsAt_setBody i body hj,
    locals_analyze_setBody p i body (unnumbered_parse source) hj⟩, ?_⟩
  rw [q.findings_analyze, p.length_functions_setBody i body]
  refine List.flatMap_congr fun j _ => ?_
  split
  · rfl
  · next hj => exact p.findingsAt_setBody i body hj

/-- Three functions, the second of which is declared again and is wrong in itself. -/
def declaredAgain : String :=
  "int f(int n) \x7b return n; \x7d bool f(bool b) \x7b int b; return c; \x7d" ++
    "int g() \x7b return f(1); \x7d"

/-- A body that returns nothing is wrong in the first function, and changes nothing for the
second. -/
theorem analyze_setBody_declaredAgain :
    ∃ p q : Program, p = (parse (scan declaredAgain).1).1 ∧
      q = p.setBody 0 (.mk [.ret none ⟨1, 1⟩] ⟨1, 1⟩) ∧
      q.findingsAt 0 ≠ p.findingsAt 0 ∧ p.findingsAt 1 ≠ [] ∧ q.findingsAt 1 = p.findingsAt 1 ∧
      (analyze q).table.locals[1]? = (analyze p).table.locals[1]? := by
  obtain ⟨-, hother, -⟩ := analyze_setBody declaredAgain 0 (.mk [.ret none ⟨1, 1⟩] ⟨1, 1⟩)
  obtain ⟨hfindings, hscope⟩ := hother 1 (by decide)
  exact ⟨_, _, rfl, rfl, by decide +kernel, by decide +kernel, hfindings, hscope⟩

end Tricode
