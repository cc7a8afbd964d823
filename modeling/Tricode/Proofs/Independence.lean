import Tricode.Compilation
import Tricode.Proofs.Typing.Bare

/-!
# Layout does not matter

Blanks and line breaks decide where tokens stand, and nothing else. Texts with the same words in the
same order therefore have the same fate: the trees, the symbol tables and the findings differ in
their positions only, and the code is the same (`layout_independence`).
-/

namespace Tricode

/-- The lists have tokens with the same tags and the same texts, in the same order. -/
def SameWords (ts us : List Token) : Prop :=
  ts.map (fun t => (t.tag, t.text)) = us.map fun t => (t.tag, t.text)

/-- Tokens with the `SameWords` are the same without their positions. -/
theorem SameWords.map_bare {ts us : List Token} (h : SameWords ts us) :
    ts.map Token.bare = us.map Token.bare := by
  have hbare : ∀ ts : List Token, ts.map Token.bare =
      (ts.map fun t => (t.tag, t.text)).map fun word => ⟨word.1, word.2, .nowhere⟩ := by
    intro ts
    rw [List.map_map]
    rfl
  rw [hbare ts, hbare us, h]

/-- Programs with the same `bare` program are checked alike. -/
theorem analyze_eq_of_bare {p q : Program} (h : p.bare = q.bare) :
    (analyze p).table.bare = (analyze q).table.bare ∧
      (analyze p).findings.map Finding.cause = (analyze q).findings.map Finding.cause ∧
      (analyze p).fault = (analyze q).fault := by
  obtain ⟨htable, hfindings, hfault⟩ := analyze_bare p
  obtain ⟨htable', hfindings', hfault'⟩ := analyze_bare q
  rw [h] at htable hfindings hfault
  exact ⟨htable.symm.trans htable', hfindings.symm.trans hfindings', hfault.symm.trans hfault'⟩

/-- Programs with the same `bare` program have the same code. -/
theorem generate_eq_of_bare {p q : Program} (h : p.bare = q.bare) : generate p = generate q := by
  rw [← generate_bare p, ← generate_bare q, h]

/-- Lists with the same image are empty at the same time. -/
theorem isEmpty_eq_of_map {α β : Type} {f : α → β} {as bs : List α} (h : as.map f = bs.map f) :
    as.isEmpty = bs.isEmpty := by
  rw [← List.isEmpty_map (f := f), h, List.isEmpty_map]

namespace Compilation

/-- What has become of two texts is the same up to positions. -/
structure Alike (c d : Compilation) : Prop where
  lexical : c.lexical.map Finding.cause = d.lexical.map Finding.cause
  program : c.program.map Program.bare = d.program.map Program.bare
  grammar : c.grammar.map Finding.cause = d.grammar.map Finding.cause
  table : c.table.map SymbolTable.bare = d.table.map SymbolTable.bare
  typing : c.typing.map Finding.cause = d.typing.map Finding.cause
  code : c.code = d.code
  fault : c.fault = d.fault

variable {c d : Compilation} {p q : Program}

/-- The messages of a `Compilation` are those of its causes. -/
theorem map_message_diagnostics (c : Compilation) :
    c.diagnostics.map Diagnostic.message =
      (c.lexical.map Finding.cause).map LexicalCause.message ++
        (c.grammar.map Finding.cause).map GrammarCause.message ++
        (c.typing.map Finding.cause).map TypingCause.message := by
  simp only [diagnostics, List.map_append, List.map_map]
  rfl

/-- Compilations that are `Alike` show the same messages. -/
theorem Alike.map_message_eq (h : c.Alike d) :
    c.diagnostics.map Diagnostic.message = d.diagnostics.map Diagnostic.message := by
  rw [map_message_diagnostics, map_message_diagnostics, h.lexical, h.grammar, h.typing]

/-- Compilations that are `Alike` succeed at the same time. -/
theorem Alike.succeeded_eq (h : c.Alike d) : c.succeeded = d.succeeded := by
  have hprogram : c.program.isSome = d.program.isSome := by
    rw [← Option.isSome_map (f := Program.bare), h.program, Option.isSome_map]
  unfold succeeded
  rw [isEmpty_eq_of_map h.map_message_eq, hprogram]

/-- Programs that are the same up to positions keep compilations `Alike`. -/
theorem Alike.withProgram (h : c.Alike d) (options options' : Options) (hp : p.bare = q.bare)
    {found found' : List (Finding GrammarCause)}
    (hfound : found.map Finding.cause = found'.map Finding.cause) :
    (c.withProgram options p found).Alike (d.withProgram options' q found') :=
  { h with program := congrArg some hp, grammar := hfound }

section

variable {options options' : Options} (hoverflow : options.overflow = options'.overflow)

include hoverflow

/-- Checking programs that are the same up to positions keeps compilations `Alike`. -/
theorem Alike.withSymbols (h : c.Alike d) (hp : p.bare = q.bare) :
    (c.withSymbols options p).Alike (d.withSymbols options' q) := by
  obtain ⟨htable, hfindings, hfault⟩ := analyze_eq_of_bare hp
  unfold Compilation.withSymbols
  rw [hoverflow]
  by_cases hcheck : options'.overflow = some .check
  · simp only [hcheck, if_true]
    exact { h with table := rfl, typing := rfl, fault := rfl }
  · simp only [hcheck, if_false]
    exact { h with table := congrArg some htable, typing := hfindings, fault := hfault }

/-- Lowering programs that are the same up to positions keeps compilations `Alike`. -/
theorem Alike.withCode (h : c.Alike d) (hp : p.bare = q.bare) :
    (c.withCode options p).Alike (d.withCode options' q) := by
  unfold Compilation.withCode
  rw [generate_eq_of_bare hp, hoverflow]
  split
  · exact { h with typing := rfl }
  · split
    · exact { h with fault := rfl }
    · exact { h with code := rfl }

end

end Compilation

/-- Texts in which the same strays are found, and which have the `SameWords`, are compiled `Alike`,
also if only one of the compilations is logged. -/
theorem compile_alike_of_scan {options options' : Options}
    (hoverflow : options.overflow = options'.overflow) {source source' : String}
    (hlexical : (scan source).2.map Finding.cause = (scan source').2.map Finding.cause)
    (h : SameWords (scan source).1 (scan source').1) :
    (compile options source).Alike (compile options' source') := by
  obtain ⟨hprogram, hgrammar⟩ := parse_bare h.map_bare
  have hscanned : (Compilation.ofSource options source).Alike
      (Compilation.ofSource options' source') := by
    constructor
    case lexical => exact hlexical
    all_goals rfl
  have hparsed := hscanned.withProgram options options' hprogram hgrammar
  have hchecked := hparsed.withSymbols hoverflow hprogram
  have hlowered := hchecked.withCode hoverflow hprogram
  unfold compile
  dsimp only
  -- both compilations stop behind the same phase
  rw [isEmpty_eq_of_map hscanned.lexical]
  split
  · exact hscanned
  rw [show (Compilation.ofSource options source).tokens = (scan source).1 from rfl,
    show (Compilation.ofSource options' source').tokens = (scan source').1 from rfl,
    isEmpty_eq_of_map hgrammar]
  split
  · exact hparsed
  rw [isEmpty_eq_of_map hchecked.typing, hchecked.fault]
  split
  · exact hchecked
  · exact hlowered

/-- Texts without lexical findings that have the `SameWords` are compiled `Alike`. -/
theorem compile_alike (options : Options) {source source' : String}
    (hlexical : (scan source).2 = [])
    (hlexical' : (scan source').2 = []) (h : SameWords (scan source).1 (scan source').1) :
    (compile options source).Alike (compile options source') :=
  compile_alike_of_scan rfl (by rw [hlexical, hlexical']) h

/-- From tokens that have the `SameWords`, wherever they are, the parser gives trees that are equal
up to positions, that is, with the same `bare` tree, and reports the same causes; the checker
reports the same causes about these trees, and its tables are equal up to positions; and the
generator gives the same `code`, or the same fault. So texts without lexical findings that have the
same words succeed alike, with the same code. -/
theorem layout_independence :
    (∀ ts us : List Token, SameWords ts us →
      (parse ts).1.bare = (parse us).1.bare ∧
      (parse ts).2.map Finding.cause = (parse us).2.map Finding.cause ∧
      (analyze (parse ts).1).findings.map Finding.cause =
        (analyze (parse us).1).findings.map Finding.cause ∧
      (analyze (parse ts).1).table.bare = (analyze (parse us).1).table.bare ∧
      generate (parse ts).1 = generate (parse us).1) ∧
    ∀ (options : Options) (source source' : String), (scan source).2 = [] → (scan source').2 = [] →
      SameWords (scan source).1 (scan source').1 →
        (compile options source).succeeded = (compile options source').succeeded ∧
        (compile options source).code = (compile options source').code := by
  constructor
  · intro ts us h
    obtain ⟨hprogram, hgrammar⟩ := parse_bare h.map_bare
    obtain ⟨htable, hfindings, -⟩ := analyze_eq_of_bare hprogram
    exact ⟨hprogram, hgrammar, hfindings, htable, generate_eq_of_bare hprogram⟩
  · intro options source source' hlexical hlexical' h
    have halike := compile_alike options hlexical hlexical' h
    exact ⟨halike.succeeded_eq, halike.code⟩

/-- A function on one line. -/
def oneLine : String :=
  "int twice(int n) \x7b int m = n; return m + n; \x7d"

/-- The same function on several lines. -/
def manyLines : String :=
  "int twice ( int n )\n\x7b\n  int m\n    = n;\n\treturn m + n ;\n\x7d\n"

/-- The two layouts have the same words at different places, and the same `code`. -/
theorem layout_independence_manyLines :
    SameWords (scan oneLine).1 (scan manyLines).1 ∧ (scan oneLine).1 ≠ (scan manyLines).1 ∧
      (analyze (parse (scan oneLine).1).1).table.bare =
      (analyze (parse (scan manyLines).1).1).table.bare ∧
      (compile ⟨false, none⟩ oneLine).code = (compile ⟨false, none⟩ manyLines).code := by
  have hwords : SameWords (scan oneLine).1 (scan manyLines).1 := by
    unfold SameWords
    decide +kernel
  have hlexical : (scan oneLine).2 = [] ∧ (scan manyLines).2 = [] := by decide +kernel
  obtain ⟨-, -, -, htable, -⟩ := layout_independence.1 _ _ hwords
  obtain ⟨-, hcode⟩ := layout_independence.2 ⟨false, none⟩ _ _ hlexical.1 hlexical.2 hwords
  exact ⟨hwords, by decide +kernel, htable, hcode⟩

end Tricode
