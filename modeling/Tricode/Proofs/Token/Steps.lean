import Mathlib.Data.List.TakeWhile
import Tricode.Token.Scan

/-!
# The steps of a scan

A `Scanner` moves with `advance`, which stays on its line, and with `skip`, which knows line feeds.
Both agree with `Pos.after`, the position behind a piece of text: no segment but a blank has a line
feed in it (`oneLine_first`), so wherever a lexeme or a stray is read the line stays.

`read_eq` says what one step does to the whole state, `foldl_read` what a row of steps does, and
`run_eq` what a run does. A text is then scanned to its end, and what is written down are the tokens
and findings of its segments, each with the position of its first character (`scan_eq_located`).
-/

namespace Tricode

namespace Segment

/-- Each segment with the position of its first character, when the first segment starts at `p`. -/
def located (p : Pos) : List Segment → List (Pos × Segment)
  | [] => []
  | s :: ss => (p, s) :: located (p.after s.text) ss

@[simp] theorem located_nil (p : Pos) : located p [] = [] := rfl

@[simp] theorem located_cons (p : Pos) (s : Segment) (ss : List Segment) :
    located p (s :: ss) = (p, s) :: located (p.after s.text) ss := rfl

/-- The token of a placed segment, if it is one. -/
def token? : Pos × Segment → Option Token
  | (p, lexeme tag chars) => some ⟨tag, String.ofList chars, p⟩
  | _ => none

/-- The finding of a placed segment, if it is a stray. -/
def finding? : Pos × Segment → Option (Finding LexicalCause)
  | (p, stray cause) => some ⟨cause, p⟩
  | _ => none

theorem toArray_filterMap_located_cons {α : Type} (f : Pos × Segment → Option α) (p : Pos)
    (s : Segment) (ss : List Segment) :
    ((located p (s :: ss)).filterMap f).toArray =
      (f (p, s)).toArray ++ ((located (p.after s.text) ss).filterMap f).toArray := by
  rw [located_cons, List.filterMap_cons]
  cases f (p, s) <;> simp

/-- What holds of every `first` `Segment` holds of all `segments` of a text. -/
theorem forall_mem_segments {P : Segment → Prop} (h : ∀ c cs, P (first c cs).1) (cs : List Char) :
    ∀ s ∈ segments cs, P s := by
  induction hn : cs.length using Nat.strongRecOn generalizing cs with
  | ind n ih =>
    cases cs with
    | nil => simp
    | cons c cs =>
      rw [segments_cons]
      exact List.forall_mem_cons.2 ⟨h c cs, ih _ (hn ▸ length_first_lt c cs) _ rfl⟩

/-! ### Segments on one line -/

/-- No line feed, unless the segment is a blank. -/
def OneLine : Segment → Prop
  | blank _ => True
  | lexeme _ chars => '\n' ∉ chars
  | stray cause => cause.char ≠ '\n'

/-- A character that is not taken is not among those that are. -/
theorem not_mem_takeWhile {p : Char → Bool} {c : Char} (h : p c = false) (cs : List Char) :
    c ∉ cs.takeWhile p := by
  intro hc
  rw [List.mem_takeWhile_imp hc] at h
  cases h

theorem ne_feed {p : Char → Bool} (hfeed : p '\n' = false) {c : Char} (hc : p c = true) :
    '\n' ≠ c := by
  rintro rfl
  rw [hfeed] at hc
  cases hc

/-- A `number` stays on its line. -/
theorem oneLine_number {c : Char} (hc : c.isDigit = true) (cs : List Char) :
    (number c cs).1.OneLine := by
  have hne : '\n' ≠ c := ne_feed (by decide) hc
  have hdigits (ds : List Char) : '\n' ∉ ds.takeWhile Char.isDigit :=
    not_mem_takeWhile (by decide) ds
  unfold number
  split
  · simp [OneLine, hne, hdigits]
  · simp [OneLine, hne, hdigits]

/-- A `mark` stays on its line. -/
theorem oneLine_mark {c : Char} (hc : isBlank c = false) : (mark c).OneLine := by
  have hne : c ≠ '\n' := by
    rintro rfl
    cases hc
  unfold mark
  split
  · simpa [OneLine] using hne.symm
  · split <;> exact hne

theorem oneLine_pair {c d : Char} {tag : Tag} (h : pairTag c d = some tag) :
    OneLine (lexeme tag [c, d]) := by
  unfold pairTag at h
  split at h <;> simp_all [OneLine]

/-- The `first` segment of a text stays on its line, unless it is a blank. -/
theorem oneLine_first (c : Char) (cs : List Char) : (first c cs).1.OneLine := by
  unfold first
  -- only a blank can be a line feed
  split
  · trivial
  split
  · next hword =>
    simp only [OneLine, List.mem_cons, not_or]
    exact ⟨ne_feed (by decide) hword, not_mem_takeWhile (by decide) cs⟩
  split
  · next hdigit => exact oneLine_number hdigit cs
  next hblank _ _ =>
  have hmark := oneLine_mark (Bool.eq_false_iff.2 hblank)
  split
  · split
    · next tag h => exact oneLine_pair h
    · exact hmark
  · exact hmark

end Segment

/-- Along a line, `Pos.after` counts the columns. -/
theorem Pos.after_eq_of_not_mem {text : List Char} (h : '\n' ∉ text) (p : Pos) :
    p.after text = ⟨p.line, p.column + text.length⟩ := by
  induction text generalizing p with
  | nil => simp
  | cons c text ih =>
    simp only [List.mem_cons, not_or] at h
    rw [Pos.after_cons, ih h.2, Pos.step, if_neg (Ne.symm h.1)]
    simp only [List.length_cons, Pos.mk.injEq, true_and]
    omega

namespace Scanner

open Segment

/-- One step moves the `Scanner` behind the text of the `Segment`, and writes down its token or its
finding at the place where the step began. -/
theorem read_eq (s : Scanner) {segment : Segment} (h : segment.OneLine) :
    s.read segment =
      { rest := s.rest.drop segment.text.length
        offset := s.offset + segment.text.length
        pos := s.pos.after segment.text
        tokens := s.tokens ++ (token? (s.pos, segment)).toArray
        findings := s.findings ++ (finding? (s.pos, segment)).toArray } := by
  cases segment with
  | blank c =>
    -- a line feed opens a line, and any other blank is one column
    by_cases hc : c = '\n'
    · simp [read, skip, text, Pos.step, token?, finding?, hc]
    · simp [read, skip, advance, text, Pos.step, token?, finding?, hc]
  | lexeme tag chars =>
    simp [read, add, advance, text, token?, finding?, Pos.after_eq_of_not_mem h]
  | stray cause =>
    have hfeed : '\n' ∉ [cause.char] := by simpa using Ne.symm h
    simp [read, error, advance, text, token?, finding?, Pos.after_eq_of_not_mem hfeed]

/-- A row of steps moves the `Scanner` behind all the segments. -/
theorem foldl_read (s : Scanner) {ss : List Segment} (h : ∀ segment ∈ ss, segment.OneLine) :
    ss.foldl read s =
      { rest := s.rest.drop (ss.flatMap text).length
        offset := s.offset + (ss.flatMap text).length
        pos := s.pos.after (ss.flatMap text)
        tokens := s.tokens ++ ((located s.pos ss).filterMap token?).toArray
        findings := s.findings ++ ((located s.pos ss).filterMap finding?).toArray } := by
  induction ss generalizing s with
  | nil => simp
  | cons segment ss ih =>
    -- the first step, and then the others from where it leads
    rw [List.foldl_cons, ih _ fun x hx => h x (List.mem_cons_of_mem _ hx),
      read_eq s (h segment List.mem_cons_self)]
    simp only [List.flatMap_cons, List.length_append, List.drop_drop, Pos.after_append,
      Nat.add_assoc, Array.append_assoc, toArray_filterMap_located_cons]

/-- A run moves the `Scanner` to the end of its text, and adds an end token there. -/
theorem run_eq (s : Scanner) :
    s.run =
      { rest := []
        offset := s.offset + s.rest.length
        pos := s.pos.after s.rest
        tokens := s.tokens ++ ((located s.pos (segments s.rest)).filterMap token? ++
          [Token.endAt (s.pos.after s.rest)]).toArray
        findings :=
          s.findings ++ ((located s.pos (segments s.rest)).filterMap finding?).toArray } := by
  rw [run, foldl_read s (forall_mem_segments oneLine_first s.rest), flatMap_text_segments]
  simp

end Scanner

/-- Scanning gives the tokens and the findings of the `segments`, each with the position of its
first character, and an end token behind the text. -/
theorem scan_eq_located (source : String) :
    scan source =
      ((Segment.located Pos.start (Segment.segments source.toList)).filterMap Segment.token?
          ++ [Token.endAt (Pos.start.after source.toList)],
        (Segment.located Pos.start (Segment.segments source.toList)).filterMap
          Segment.finding?) := by
  rw [scan, Scanner.run_eq]
  simp [Scanner.ofSource]

end Tricode
