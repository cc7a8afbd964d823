import Tricode.Proofs.Parser.Locality

/-!
# Clean text in front changes nothing

Where functions in which nothing is wrong stand in front of other tokens, these tokens are parsed as
they would be by themselves, be they well formed or not (`parse_append_of_clean`). Nothing is
carried over from one function to the next, and none of the functions in front was looked at beyond
its closing brace.

A repetition that succeeds is a row of items with their findings, and a last look at which there is
no item (`many_eq_ok_iff`). Rows can be joined (`Collects.append`), and the functions of a clean
text are such a row in front of anything (`items_of_sequence`).
-/

namespace Tricode

namespace Parser

open Grammar Pass

variable {α ε : Type}

/-! ### Repetition as a row of items -/

/-- To `collect` an item is to run it, whatever it reports. -/
theorem collect_eq_ok_iff {item : Reader ε (Option α)} {ts rest : List Token} {found : List α}
    {found? : Option (List α)} {log : List (Finding GrammarCause)} :
    collect item found ts = ⟨.ok found?, log, rest⟩ ↔
      ∃ a?, item ts = ⟨.ok a?, log, rest⟩ ∧ found? = a?.map (· :: found) := by
  constructor
  · intro h
    cases hitem : item ts with
    | mk value log' mid =>
      cases value with
      | error e =>
        have herror : collect item found ts = ⟨.error e, log', mid⟩ := bind_of_error hitem
        cases herror.symm.trans h
      | ok a? =>
        have hok : collect item found ts = ⟨.ok (a?.map (· :: found)), log', mid⟩ := by
          cases a? <;> exact bind_eq_of_silent hitem rfl
        cases hok.symm.trans h
        exact ⟨a?, rfl, rfl⟩
  · rintro ⟨a?, hitem, rfl⟩
    cases a? <;> exact bind_eq_of_silent hitem rfl

/-- What `Collects` one item after the other is a piece of the loop that goes on behind it. -/
theorem Collects.runs {item : Reader ε (Option α)} {ts mid : List Token} {as found : List α}
    {log : List (Finding GrammarCause)} (h : Collects item ts as log mid)
    {r : Outcome (List Token) (Finding GrammarCause) ε (List α)}
    (hr : Runs (collect item) (as.reverse ++ found) mid r) :
    Runs (collect item) found ts ⟨r.value, log ++ r.log, r.state⟩ := by
  induction h generalizing found with
  | nil => exact hr
  | cons head _ _ ih =>
    rw [List.reverse_cons, List.append_assoc] at hr
    rw [List.append_assoc]
    exact .further (collect_apply head found) (ih hr)

/-- What a loop has found when it succeeds is a row that it `Collects`. -/
theorem exists_collects_of_runs {item : Reader ε (Option α)} (hitem : Paced item) {ts : List Token}
    {found all : List α} {r : Outcome (List Token) (Finding GrammarCause) ε (List α)}
    (h : Runs (collect item) found ts r) (hr : r.value = .ok all) :
    ∃ as log mid last, all = as.reverse ++ found ∧ Collects item ts as log mid ∧
      item mid = ⟨.ok none, last, r.state⟩ ∧ r.log = log ++ last := by
  induction h with
  | @done found ts rest log hlast =>
    cases hr
    obtain ⟨a?, hnone, ha⟩ := collect_eq_ok_iff.1 hlast
    obtain rfl : a? = none := Option.map_eq_none_iff.1 ha.symm
    exact ⟨[], [], ts, log, rfl, .nil, hnone, rfl⟩
  | failed => cases hr
  | @further found found' ts rest log r hfirst _ ih =>
    obtain ⟨a?, hsome, ha⟩ := collect_eq_ok_iff.1 hfirst
    obtain ⟨a, rfl, rfl⟩ := Option.map_eq_some_iff.1 ha.symm
    obtain ⟨as, log', mid, last, rfl, hothers, hnone, hlog⟩ := ih hr
    refine ⟨a :: as, log ++ log', mid, last, by simp, ?_, hnone, by rw [hlog, List.append_assoc]⟩
    exact .cons hsome (hitem.reads ts a log rest hsome) hothers

/-- `many` succeeds with a row of items up to where there is none. -/
theorem many_eq_ok_iff {item : Reader ε (Option α)} (hitem : Paced item) {ts rest : List Token}
    {as : List α} {log : List (Finding GrammarCause)} :
    many item ts = ⟨.ok as, log, rest⟩ ↔
      ∃ log' mid last, Collects item ts as log' mid ∧ item mid = ⟨.ok none, last, rest⟩ ∧
        log = log' ++ last := by
  have hprogresses := progresses_collect hitem
  constructor
  · intro h
    obtain ⟨found, log₁, mid, log₂, hloop, -⟩ := exists_of_bind_eq_ok h
    have hmany : many item ts = ⟨.ok found.reverse, log₁, mid⟩ := bind_eq_of_silent hloop rfl
    cases hmany.symm.trans h
    have hruns := (loop_eq_iff_runs hprogresses).1 hloop
    obtain ⟨as, log', mid, last, rfl, hrow, hnone, hlog⟩ := exists_collects_of_runs hitem hruns rfl
    rw [List.append_nil, List.reverse_reverse]
    exact ⟨log', mid, last, hrow, hnone, hlog⟩
  · rintro ⟨log', mid, last, hrow, hnone, rfl⟩
    -- the loop ends at the first place without an item
    have hlast : collect item (as.reverse ++ []) mid = ⟨.ok none, last, rest⟩ :=
      collect_eq_ok_iff.2 ⟨none, hnone, rfl⟩
    have hloop : loop (collect item) [] ts = ⟨.ok (as.reverse ++ []), log' ++ last, rest⟩ :=
      (loop_eq_iff_runs hprogresses).2 (hrow.runs (.done hlast))
    refine bind_eq_of_silent hloop ?_
    rw [List.append_nil, List.reverse_reverse]
    rfl

/-- A row that `many` begins with is part of what it finds. -/
theorem many_of_collects {item : Reader ε (Option α)} (hitem : Paced item)
    {ts mid rest : List Token}
    {as bs : List α} {log log' : List (Finding GrammarCause)} (hrow : Collects item ts as log mid)
    (h : many item mid = ⟨.ok bs, log', rest⟩) :
    many item ts = ⟨.ok (as ++ bs), log ++ log', rest⟩ := by
  obtain ⟨log₁, mid', last, hothers, hnone, rfl⟩ := (many_eq_ok_iff hitem).1 h
  rw [← List.append_assoc]
  exact (many_eq_ok_iff hitem).2 ⟨log ++ log₁, mid', last, hrow.append hothers, hnone, rfl⟩

/-! ### Functions in which nothing is wrong -/

/-- Tokens in front of an end at which `parse` has read a program without findings are functions. -/
theorem sequence_of_clean {A ending : List Token} (hA : ∀ t ∈ A, t.tag ≠ .eof)
    (hending : (next ending).isEnd = true) (hclean : (parse (A ++ ending)).2 = []) :
    Sequence (Grammar.Function maxNesting) A (parse (A ++ ending)).1.functions := by
  have hwords : ∀ t ∈ A, t.isEnd = false := by
    intro t ht
    simpa [Token.isEnd] using hA t ht
  obtain ⟨rest, hyields⟩ := parse_eq_iff_yields.1 (Prod.ext rfl hclean)
  obtain ⟨w, hw, hsequence, -, -⟩ := program_yields_iff.1 hyields
  -- the end that stopped the program is the one behind `A`
  have hstate : rest = ending := by
    have hdrop := state_program maxNesting (A ++ ending)
    rw [hyields, endOf_append hwords hending, List.drop_left] at hdrop
    exact hdrop
  rw [hstate] at hw
  rwa [← List.append_cancel_right hw] at hsequence

end Parser

open Tricode.Parser

/-- Take tokens for which `parse` gives no finding, by themselves or with an end token behind them,
and put any other tokens behind them instead. The program then has the functions of the first tokens
and behind them those of the others, and the findings are those about the others by themselves, in
the same order. -/
theorem parse_append_of_clean (A ending : List Token) (hA : ∀ t ∈ A, t.tag ≠ .eof)
    (hending : (next ending).isEnd = true) (hclean : (parse (A ++ ending)).2 = [])
    (others : List Token) :
    parse (A ++ others) =
      (⟨(parse (A ++ ending)).1.functions ++ (parse others).1.functions, (next (A ++ others)).pos⟩,
        (parse others).2) := by
  have hitems := items_of_sequence (sequence_of_clean hA hending hclean) others
  have hrow := collects_of_items (consumes_programItem maxNesting) hitems
  -- the others are read by themselves, and then behind the first functions
  cases hmany : many (programItem maxNesting) others with
  | mk value log rest =>
    cases value with
    | error e => exact e.elim
    | ok found =>
      have hothers : parse others = (⟨found.filterMap id, (next others).pos⟩, log) := by
        rw [parse, program_apply hmany]
        rfl
      have hall := program_apply (many_of_collects (paced_programItem maxNesting) hrow hmany)
      rw [hothers, parse, hall, List.filterMap_append, List.filterMap_map, Function.id_comp,
        List.filterMap_some]
      rfl

/-- A function in which nothing is wrong. -/
def soundText : String :=
  "int f(int n) \x7b return n; \x7d"

/-- A keyword that begins nothing, a head that is not closed, and a function with a bad
statement. -/
def faultyText : String :=
  "else int g( \x7b \x7d float h() \x7b 1 = 2; \x7d"

/-- The sound function is kept, the function `h` is found, and the three findings are those there
are without the sound function. -/
theorem parse_append_of_clean_faultyText :
    (∀ t ∈ (scan soundText).1.dropLast, t.tag ≠ .eof) ∧ (parse (scan soundText).1).2 = [] ∧
      (parse (scan faultyText).1).2.length = 3 ∧
      (parse ((scan soundText).1.dropLast ++ (scan faultyText).1)).1.functions.map Function.name =
        ["f", "h"] ∧
      (parse ((scan soundText).1.dropLast ++ (scan faultyText).1)).2 =
      (parse (scan faultyText).1).2 := by
  have htokens : ∀ t ∈ (scan soundText).1.dropLast, t.tag ≠ .eof := by decide +kernel
  have hsound : (scan soundText).1.dropLast ++ [.endAt ⟨1, 27⟩] = (scan soundText).1 := by
    decide +kernel
  have hclean : (parse (scan soundText).1).2 = [] := by decide +kernel
  have happend := parse_append_of_clean (scan soundText).1.dropLast [.endAt ⟨1, 27⟩] htokens rfl
    (by rw [hsound]; exact hclean) (scan faultyText).1
  rw [happend, hsound]
  exact ⟨htokens, hclean, by decide +kernel, by decide +kernel, rfl⟩

end Tricode
