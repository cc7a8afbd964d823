import Tricode.Proofs.Token.Steps
import Tricode.Text.Utf8

/-!
# Line ends in a source text

Turning every line end into a line feed (`unixText`) changes blanks only, so the scanner cuts the
text into the same lexemes and strays (`filter_solid_segments_unixLines`). If each carriage return
has a line feed behind it (`Paired`), then what follows a line end stands where it stood, and the
scan is the same to the last position (`scan_unixText`).

The scanner and the translation go through a text at different paces: the one by lexemes, the other
by line ends. `segments_induction` goes by both.
-/

namespace Tricode

/-- The text with every line end turned into a line feed. -/
def unixText (source : String) : String :=
  String.ofList (Text.unixLines source.toList)

/-- Each carriage return has a line feed behind it. -/
def Paired (cs : List Char) : Prop :=
  ∀ i < cs.length, cs[i]? = some '\r' → cs[i + 1]? = some '\n'

instance (cs : List Char) : Decidable (Paired cs) :=
  inferInstanceAs (Decidable (∀ i < cs.length, cs[i]? = some '\r' → cs[i + 1]? = some '\n'))

theorem Paired.of_append {a b : List Char} (h : Paired (a ++ b)) : Paired b := by
  intro i hi hreturn
  have hat : ∀ j, (a ++ b)[a.length + j]? = b[j]? := fun j => by
    rw [List.getElem?_append_right (Nat.le_add_right _ _), Nat.add_sub_cancel_left]
  have hfeed := h (a.length + i) (by rw [List.length_append]; omega) ((hat i).trans hreturn)
  rwa [Nat.add_assoc, hat] at hfeed

theorem Paired.head?_eq {cs : List Char} (h : Paired ('\r' :: cs)) : cs.head? = some '\n' := by
  rw [List.head?_eq_getElem?]
  exact h 0 (Nat.zero_lt_succ _) rfl

/-! ### The translation -/

namespace Text

/-- In `unixFrom`, what was read before comes in front. -/
theorem unixFrom_append (found before cs : List Char) :
    unixFrom (found ++ before) cs = before.reverse ++ unixFrom found cs := by
  fun_induction unixFrom found cs with
  | case1 found cs ih =>
    rw [← ih, unixFrom]
    rfl
  | case2 found cs hne ih =>
    rw [← ih, unixFrom]
    · rfl
    · exact hne
  | case3 found c cs hcrlf hcr ih =>
    rw [← ih, unixFrom]
    · rfl
    · exact hcrlf
    · exact hcr
  | case4 found => rw [unixFrom, List.reverse_append]

theorem unixFrom_eq (found cs : List Char) : unixFrom found cs = found.reverse ++ unixLines cs :=
  unixFrom_append [] found cs

theorem unixLines_crlf (cs : List Char) :
    unixLines ('\r' :: '\n' :: cs) = '\n' :: unixLines cs := by
  rw [unixLines, unixFrom, unixFrom_eq]
  rfl

/-- For `unixLines`, a carriage return without a line feed behind it is a line end by itself. -/
theorem unixLines_cr {cs : List Char} (h : cs.head? ≠ some '\n') :
    unixLines ('\r' :: cs) = '\n' :: unixLines cs := by
  rw [unixLines, unixFrom, unixFrom_eq]
  · rfl
  · rintro ds rfl
    exact h rfl

theorem unixLines_cons {c : Char} (h : c ≠ '\r') (cs : List Char) :
    unixLines (c :: cs) = c :: unixLines cs := by
  rw [unixLines, unixFrom, unixFrom_eq]
  · rfl
  · exact fun _ hc => absurd hc h
  · exact h

/-- `unixLines` makes a carriage return a line feed, whatever follows. -/
theorem exists_unixLines_return (cs : List Char) : ∃ ds, unixLines ('\r' :: cs) = '\n' :: ds := by
  by_cases h : cs.head? = some '\n'
  · obtain ⟨ds, rfl⟩ := List.head?_eq_some_iff.1 h
    exact ⟨_, unixLines_crlf ds⟩
  · exact ⟨_, unixLines_cr h⟩

/-- `unixLines` makes something else of line ends only. -/
theorem head?_unixLines_ne {c : Char} {cs : List Char} (hc : c ≠ '\n') (h : cs.head? ≠ some c) :
    (unixLines cs).head? ≠ some c := by
  cases cs with
  | nil => exact h
  | cons d ds =>
    -- a carriage return becomes a line feed, which is not `c`
    by_cases hd : d = '\r'
    · subst hd
      obtain ⟨es, hes⟩ := exists_unixLines_return ds
      rw [hes]
      exact fun heq => hc (Option.some.inj heq).symm
    · rw [unixLines_cons hd]
      exact h

section

variable {p : Char → Bool} (hreturn : p '\r' = false) (hfeed : p '\n' = false)

include hreturn hfeed

/-- `unixLines` keeps a run of characters without line ends. -/
theorem takeWhile_unixLines (cs : List Char) : (unixLines cs).takeWhile p = cs.takeWhile p := by
  induction cs with
  | nil => rfl
  | cons c cs ih =>
    by_cases hc : c = '\r'
    · subst hc
      obtain ⟨ds, hds⟩ := exists_unixLines_return cs
      rw [hds, List.takeWhile_cons_of_neg (by simp [hfeed]),
        List.takeWhile_cons_of_neg (by simp [hreturn])]
    · rw [unixLines_cons hc, List.takeWhile_cons, List.takeWhile_cons, ih]

/-- What is behind a run of characters without line ends is translated by `unixLines` on its own. -/
theorem dropWhile_unixLines (cs : List Char) :
    (unixLines cs).dropWhile p = unixLines (cs.dropWhile p) := by
  induction cs with
  | nil => rfl
  | cons c cs ih =>
    by_cases hc : c = '\r'
    · subst hc
      obtain ⟨ds, hds⟩ := exists_unixLines_return cs
      rw [hds, List.dropWhile_cons_of_neg (by simp [hfeed]),
        List.dropWhile_cons_of_neg (by simp [hreturn]), hds]
    · rw [unixLines_cons hc, List.dropWhile_cons, List.dropWhile_cons, ih]
      split
      · rfl
      · exact (unixLines_cons hc cs).symm

end

end Text

/-! ### Segments -/

namespace Segment

open Text

theorem number_of_point {c : Char} {cs ds : List Char} (h : cs.dropWhile Char.isDigit = '.' :: ds) :
    number c cs =
      (lexeme .floatLiteral (c :: cs.takeWhile Char.isDigit ++ '.' :: ds.takeWhile Char.isDigit),
      ds.dropWhile Char.isDigit) := by
  rw [number, h]
  rfl

theorem number_of_no_point {c : Char} {cs : List Char}
    (h : (cs.dropWhile Char.isDigit).head? ≠ some '.') :
    number c cs =
      (lexeme .intLiteral (c :: cs.takeWhile Char.isDigit), cs.dropWhile Char.isDigit) := by
  unfold number
  split
  · next ds hds => exact absurd (congrArg List.head? hds) h
  · rfl

/-- A `number` is the same in the translated text, since it holds no line end. -/
theorem number_unixLines (c : Char) (cs : List Char) :
    number c (unixLines cs) = ((number c cs).1, unixLines (number c cs).2) := by
  have htake := takeWhile_unixLines (p := Char.isDigit) rfl rfl
  have hdrop := dropWhile_unixLines (p := Char.isDigit) rfl rfl
  by_cases hpoint : (cs.dropWhile Char.isDigit).head? = some '.'
  · obtain ⟨ds, hds⟩ := List.head?_eq_some_iff.1 hpoint
    have hunix : (unixLines cs).dropWhile Char.isDigit = '.' :: unixLines ds := by
      rw [hdrop, hds, unixLines_cons (by decide)]
    rw [number_of_point hds, number_of_point hunix, htake, htake, hdrop]
  · have hunix : ((unixLines cs).dropWhile Char.isDigit).head? ≠ some '.' := by
      rw [hdrop]
      exact head?_unixLines_ne (by decide) hpoint
    rw [number_of_no_point hpoint, number_of_no_point hunix, htake, hdrop]

/-- `pairTag` knows no operator with a line end for its second character. -/
theorem pairTag_lineEnd (c : Char) : pairTag c '\r' = none ∧ pairTag c '\n' = none := by
  constructor <;> unfold pairTag <;> split <;> simp_all

/-- The `first` segment is the same, and what is left behind it is translated on its own. -/
theorem first_unixLines (c : Char) (cs : List Char) :
    first c (unixLines cs) = ((first c cs).1, unixLines (first c cs).2) := by
  unfold first
  split
  · rfl
  split
  · rw [takeWhile_unixLines rfl rfl, dropWhile_unixLines rfl rfl]
  split
  · exact number_unixLines c cs
  · cases cs with
    | nil => rfl
    | cons d ds =>
      by_cases hd : d = '\r'
      · subst hd
        -- the character in front of a line end is a segment on its own
        obtain ⟨es, hes⟩ := exists_unixLines_return ds
        rw [hes]
        simp only [pairTag_lineEnd]
        rw [hes]
      · rw [unixLines_cons hd]
        dsimp only
        cases pairTag c d with
        | none => rw [unixLines_cons hd]
        | some tag => rfl

/-- Induction on a text by its line ends and by its `first` segments. -/
@[elab_as_elim]
theorem segments_induction {motive : List Char → Prop} (nil : motive [])
    (crlf : ∀ cs, motive cs → motive ('\r' :: '\n' :: cs))
    (cr : ∀ cs, cs.head? ≠ some '\n' → motive cs → motive ('\r' :: cs))
    (other : ∀ c cs, c ≠ '\r' → motive (first c cs).2 → motive (c :: cs)) (cs : List Char) :
    motive cs := by
  -- a pair of line ends is two segments, so the induction is on the length
  induction hn : cs.length using Nat.strongRecOn generalizing cs with
  | ind n ih =>
    subst hn
    cases cs with
    | nil => exact nil
    | cons c cs =>
      by_cases hc : c = '\r'
      · subst hc
        by_cases hfeed : cs.head? = some '\n'
        · obtain ⟨ds, rfl⟩ := List.head?_eq_some_iff.1 hfeed
          exact crlf ds (ih _ (by simp only [List.length_cons]; omega) ds rfl)
        · exact cr cs hfeed (ih _ (Nat.lt_succ_self _) cs rfl)
      · exact other c cs hc (ih _ (length_first_lt c cs) _ rfl)

/-- The segment is no blank. -/
def solid : Segment → Bool
  | blank _ => false
  | _ => true

theorem segments_return (cs : List Char) : segments ('\r' :: cs) = blank '\r' :: segments cs :=
  segments_cons '\r' cs

theorem segments_feed (cs : List Char) : segments ('\n' :: cs) = blank '\n' :: segments cs :=
  segments_cons '\n' cs

/-- The `first` segment of a translated text, unless the text begins with a carriage return. -/
theorem segments_unixLines_cons {c : Char} (hc : c ≠ '\r') (cs : List Char) :
    segments (unixLines (c :: cs)) = (first c cs).1 :: segments (unixLines (first c cs).2) := by
  rw [unixLines_cons hc, segments_cons, first_unixLines]

/-- The translation keeps all `segments` but blanks. -/
theorem filter_solid_segments_unixLines (cs : List Char) :
    (segments (unixLines cs)).filter solid = (segments cs).filter solid := by
  induction cs using segments_induction with
  | nil => rfl
  | crlf cs ih =>
    -- two blanks become one
    rw [unixLines_crlf, segments_feed, segments_return, segments_feed]
    exact ih
  | cr cs hfeed ih =>
    rw [unixLines_cr hfeed, segments_feed, segments_return]
    exact ih
  | other c cs hc ih =>
    rw [segments_unixLines_cons hc, segments_cons, List.filter_cons, List.filter_cons, ih]

/-! ### Positions -/

theorem unixLines_text_append {c : Char} (hc : c ≠ '\r') (cs : List Char) :
    unixLines (c :: cs) = (first c cs).1.text ++ unixLines (first c cs).2 := by
  have htext := text_first_append c (unixLines cs)
  rw [first_unixLines] at htext
  rw [unixLines_cons hc, htext]

theorem paired_first {c : Char} {cs : List Char} (h : Paired (c :: cs)) :
    Paired (first c cs).2 := by
  rw [← text_first_append c cs] at h
  exact h.of_append

/-- A line feed opens a line, with a carriage return in front of it as well as without. -/
theorem step_return_step_feed (p : Pos) : (p.step '\r').step '\n' = p.step '\n' := rfl

/-- Where a text is `Paired`, each carriage return with a line feed behind it, the translated text
ends where the text ends. -/
theorem after_unixLines {cs : List Char} (h : Paired cs) (p : Pos) :
    p.after (unixLines cs) = p.after cs := by
  induction cs using segments_induction generalizing p with
  | nil => rfl
  | crlf cs ih =>
    rw [unixLines_crlf, Pos.after_cons, Pos.after_cons, Pos.after_cons, step_return_step_feed]
    exact ih (h.of_append (a := ['\r', '\n'])) _
  | cr cs hfeed => exact absurd h.head?_eq hfeed
  | other c cs hc ih =>
    rw [unixLines_text_append hc, ← text_first_append c cs, Pos.after_append, Pos.after_append,
      ih (paired_first h)]

/-- Where each carriage return has a line feed behind it, the translation keeps all `segments` but
blanks at their places. -/
theorem filter_solid_located_unixLines {cs : List Char} (h : Paired cs) (p : Pos) :
    (located p (segments (unixLines cs))).filter (fun s => s.2.solid) =
      (located p (segments cs)).filter fun s => s.2.solid := by
  induction cs using segments_induction generalizing p with
  | nil => rfl
  | crlf cs ih =>
    rw [unixLines_crlf, segments_feed, segments_return, segments_feed, located_cons, located_cons,
      located_cons]
    exact ih (h.of_append (a := ['\r', '\n'])) _
  | cr cs hfeed => exact absurd h.head?_eq hfeed
  | other c cs hc ih =>
    rw [segments_unixLines_cons hc, segments_cons, located_cons, located_cons, List.filter_cons,
      List.filter_cons, ih (paired_first h)]

/-! ### Scans -/

/-- The tag and the text of the token that a segment becomes. -/
def word? : Segment → Option (Tag × String)
  | lexeme tag chars => some (tag, String.ofList chars)
  | _ => none

/-- The cause of the finding that a segment becomes. -/
def cause? : Segment → Option LexicalCause
  | stray cause => some cause
  | _ => none

/-- A function that skips blanks needs only the `solid` segments. -/
theorem filterMap_filter_solid {α β : Type} (s : β → Segment) {f : β → Option α}
    (hf : ∀ b, (s b).solid = false → f b = none) (bs : List β) :
    (bs.filter fun b => (s b).solid).filterMap f = bs.filterMap f := by
  rw [List.filterMap_filter]
  congr 1
  funext b
  split
  · rfl
  · next h => exact (hf b (by simpa using h)).symm

theorem map_snd_located (p : Pos) (ss : List Segment) : (located p ss).map Prod.snd = ss := by
  induction ss generalizing p with
  | nil => rfl
  | cons s ss ih => rw [located_cons, List.map_cons, ih]

/-- What is read off `located` segments without their places. -/
theorem map_filterMap_located {α β : Type} {f : Pos × Segment → Option α} {g : α → β}
    {word : Segment → Option β} (h : ∀ p s, (f (p, s)).map g = word s) (p : Pos)
    (ss : List Segment) :
    ((located p ss).filterMap f).map g = ss.filterMap word := by
  have hword : (fun s => (f s).map g) = word ∘ Prod.snd := funext fun s => h s.1 s.2
  rw [List.map_filterMap, hword, ← List.filterMap_map, map_snd_located]

end Segment

section

open Segment

/-- The words of a text are those of its `segments`. -/
theorem map_word_scan (source : String) :
    (scan source).1.map (fun t => (t.tag, t.text)) =
      (segments source.toList).filterMap word? ++ [(.eof, "")] := by
  have hword : ∀ p s, (token? (p, s)).map (fun t => (t.tag, t.text)) = word? s := by
    intro p s
    cases s <;> rfl
  rw [scan_eq_located, List.map_append, map_filterMap_located hword]
  rfl

/-- The causes that are found in a text are those of its `segments`. -/
theorem map_cause_scan (source : String) :
    (scan source).2.map Finding.cause = (segments source.toList).filterMap cause? := by
  have hcause : ∀ p s, (finding? (p, s)).map Finding.cause = cause? s := by
    intro p s
    cases s <;> rfl
  rw [scan_eq_located, map_filterMap_located hcause]

theorem toList_unixText (source : String) :
    (unixText source).toList = Text.unixLines source.toList :=
  String.toList_ofList

/-- The translation `unixText` keeps the words of a text. -/
theorem map_word_scan_unixText (source : String) :
    (scan (unixText source)).1.map (fun t => (t.tag, t.text)) =
      (scan source).1.map fun t => (t.tag, t.text) := by
  have hskip : ∀ s : Segment, s.solid = false → word? s = none := by
    intro s hs
    cases s with
    | blank => rfl
    | _ => cases hs
  rw [map_word_scan, map_word_scan, toList_unixText, ← filterMap_filter_solid id hskip,
    ← filterMap_filter_solid id hskip (segments source.toList)]
  exact congrArg (fun ss => ss.filterMap word? ++ _) (filter_solid_segments_unixLines _)

/-- The translation `unixText` keeps the causes that are found in a text. -/
theorem map_cause_scan_unixText (source : String) :
    (scan (unixText source)).2.map Finding.cause = (scan source).2.map Finding.cause := by
  have hskip : ∀ s : Segment, s.solid = false → cause? s = none := by
    intro s hs
    cases s with
    | blank => rfl
    | _ => cases hs
  rw [map_cause_scan, map_cause_scan, toList_unixText, ← filterMap_filter_solid id hskip,
    ← filterMap_filter_solid id hskip (segments source.toList)]
  exact congrArg (List.filterMap cause?) (filter_solid_segments_unixLines _)

/-- Where each carriage return has a line feed behind it, the translation keeps the `scan`. -/
theorem scan_unixText {source : String} (h : Paired source.toList) :
    scan (unixText source) = scan source := by
  -- blanks give neither tokens nor findings
  have hskip : ∀ b : Pos × Segment, b.2.solid = false → token? b = none ∧ finding? b = none := by
    rintro ⟨p, s⟩ hs
    cases s with
    | blank => exact ⟨rfl, rfl⟩
    | _ => cases hs
  have hlocated := filter_solid_located_unixLines h Pos.start
  rw [scan_eq_located, scan_eq_located, toList_unixText, after_unixLines h,
    ← filterMap_filter_solid Prod.snd fun b hb => (hskip b hb).1,
    ← filterMap_filter_solid Prod.snd fun b hb => (hskip b hb).2, hlocated,
    filterMap_filter_solid Prod.snd fun b hb => (hskip b hb).1,
    filterMap_filter_solid Prod.snd fun b hb => (hskip b hb).2]

end

end Tricode
