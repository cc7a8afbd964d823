import Tricode.Proofs.Token.LineEnds
import Tricode.Proofs.Token.Partition

/-!
# Scanning line by line

No segment of a text goes across a line feed, so a text is cut in front of a line feed as if it
ended there, and behind it as if it began there (`segments_append_feed`). What is behind the line
feed stands in the first column, and so it is placed as in a text of its own, only some lines
further down (`located_down`).

`scan_append_feed` puts this together: the scan of two texts with a line feed between them is made
of their two scans.
-/

namespace Tricode

/-! ### Further down -/

/-- The position `n` lines further down, in the same column. -/
def Pos.down (n : Nat) (p : Pos) : Pos :=
  ⟨p.line + n, p.column⟩

/-- The token `n` lines further down. -/
def Token.down (n : Nat) (t : Token) : Token :=
  { t with pos := t.pos.down n }

/-- The finding `n` lines further down. -/
def Finding.down {κ : Type} (n : Nat) (f : Finding κ) : Finding κ :=
  { f with pos := f.pos.down n }

namespace Pos

/-- One `step` further is one step further, also further down. -/
theorem down_step (n : Nat) (p : Pos) (c : Char) : (p.down n).step c = (p.step c).down n := by
  unfold step
  split
  · show (⟨p.line + n + 1, 1⟩ : Pos) = ⟨p.line + 1 + n, 1⟩
    rw [Int.add_right_comm]
  · rfl

theorem down_after (n : Nat) (p : Pos) (text : List Char) :
    (p.down n).after text = (p.after text).down n := by
  induction text generalizing p with
  | nil => rfl
  | cons c text ih => rw [after_cons, after_cons, down_step, ih]

/-- Behind a text and a line feed, a line begins. -/
theorem after_step_feed (text : List Char) :
    (start.after text).step '\n' = start.down (1 + text.count '\n') := by
  have hbehind : start.after text = behind text := by
    rw [start_eq_behind, after_behind, List.nil_append]
  rw [hbehind]
  show (⟨1 + text.count '\n' + 1, 1⟩ : Pos) = ⟨1 + (1 + text.count '\n' : Nat), 1⟩
  rw [Pos.mk.injEq]
  omega

end Pos

/-! ### Segments in front of a line feed -/

namespace Segment

section

variable {p : Char → Bool} (hfeed : p '\n' = false)

include hfeed

/-- A run of characters without line feeds ends in front of one. -/
theorem takeWhile_append_feed (a b : List Char) : (a ++ '\n' :: b).takeWhile p = a.takeWhile p := by
  induction a with
  | nil => exact List.takeWhile_cons_of_neg (by simp [hfeed])
  | cons c a ih => rw [List.cons_append, List.takeWhile_cons, List.takeWhile_cons, ih]

theorem dropWhile_append_feed (a b : List Char) :
    (a ++ '\n' :: b).dropWhile p = a.dropWhile p ++ '\n' :: b := by
  induction a with
  | nil => exact List.dropWhile_cons_of_neg (by simp [hfeed])
  | cons c a ih =>
    rw [List.cons_append, List.dropWhile_cons, List.dropWhile_cons, ih]
    split
    · rfl
    · rfl

end

/-- A `number` ends in front of a line feed. -/
theorem number_append_feed (c : Char) (a b : List Char) :
    number c (a ++ '\n' :: b) = ((number c a).1, (number c a).2 ++ '\n' :: b) := by
  have htake := fun a => takeWhile_append_feed (p := Char.isDigit) rfl a b
  have hdrop := fun a => dropWhile_append_feed (p := Char.isDigit) rfl a b
  by_cases hpoint : (a.dropWhile Char.isDigit).head? = some '.'
  · obtain ⟨ds, hds⟩ := List.head?_eq_some_iff.1 hpoint
    have hlonger : (a ++ '\n' :: b).dropWhile Char.isDigit = '.' :: (ds ++ '\n' :: b) := by
      rw [hdrop, hds, List.cons_append]
    rw [number_of_point hds, number_of_point hlonger, htake, htake, hdrop]
  · -- where the digits reach the line feed, no point follows them
    have hlonger : ((a ++ '\n' :: b).dropWhile Char.isDigit).head? ≠ some '.' := by
      rw [hdrop]
      cases hrest : a.dropWhile Char.isDigit with
      | nil => simp
      | cons d ds => rwa [hrest] at hpoint
    rw [number_of_no_point hpoint, number_of_no_point hlonger, htake, hdrop]

/-- The `first` segment is found in front of the line feed. -/
theorem first_append_feed (c : Char) (a b : List Char) :
    first c (a ++ '\n' :: b) = ((first c a).1, (first c a).2 ++ '\n' :: b) := by
  unfold first
  split
  · rfl
  split
  · rw [takeWhile_append_feed rfl, dropWhile_append_feed rfl]
  split
  · exact number_append_feed c a b
  · cases a with
    | nil =>
      -- a character in front of the line feed is a segment on its own
      rw [List.nil_append]
      simp only [pairTag_lineEnd]
    | cons d ds =>
      rw [List.cons_append]
      dsimp only
      cases pairTag c d with
      | none => rfl
      | some tag => rfl

/-- A line feed cuts the `segments` of a text. -/
theorem segments_append_feed (a b : List Char) :
    segments (a ++ '\n' :: b) = segments a ++ blank '\n' :: segments b := by
  induction hn : a.length using Nat.strongRecOn generalizing a with
  | ind n ih =>
    cases a with
    | nil => exact segments_feed b
    | cons c a =>
      have hrest := ih _ (hn ▸ length_first_lt c a) (first c a).2 rfl
      rw [List.cons_append, segments_cons, segments_cons, first_append_feed, hrest,
        List.cons_append]

/-! ### Places behind a line feed -/

theorem located_append (p : Pos) (ss us : List Segment) :
    located p (ss ++ us) = located p ss ++ located (p.after (ss.flatMap text)) us := by
  induction ss generalizing p with
  | nil => rfl
  | cons s ss ih =>
    rw [List.cons_append, located_cons, located_cons, ih, List.flatMap_cons, Pos.after_append,
      List.cons_append]

/-- Where a text begins further down, its `located` segments are further down by as many lines. -/
theorem located_down (n : Nat) (p : Pos) (ss : List Segment) :
    located (p.down n) ss = (located p ss).map fun s => (s.1.down n, s.2) := by
  induction ss generalizing p with
  | nil => rfl
  | cons s ss ih => rw [located_cons, located_cons, Pos.down_after, ih, List.map_cons]

/-- What is read of segments further down is further down, if it is so for each `Segment`. -/
theorem filterMap_down {α : Type} {n : Nat} {read : Pos × Segment → Option α} {down : α → α}
    (h : ∀ p s, read (Pos.down n p, s) = (read (p, s)).map down) (ss : List (Pos × Segment)) :
    (ss.map fun s => (s.1.down n, s.2)).filterMap read = (ss.filterMap read).map down := by
  rw [List.filterMap_map, List.map_filterMap]
  exact congrArg (List.filterMap · ss) (funext fun s => h s.1 s.2)

theorem token?_down (n : Nat) (p : Pos) (s : Segment) :
    token? (p.down n, s) = (token? (p, s)).map (Token.down n) := by
  cases s <;> rfl

theorem finding?_down (n : Nat) (p : Pos) (s : Segment) :
    finding? (p.down n, s) = (finding? (p, s)).map (Finding.down n) := by
  cases s <;> rfl

/-- The `segments` of two texts with a line feed between them, at their places. -/
theorem located_append_feed (a b : List Char) :
    located Pos.start (segments (a ++ '\n' :: b)) =
      located Pos.start (segments a) ++ (Pos.start.after a, blank '\n') ::
        (located Pos.start (segments b)).map fun s => (s.1.down (1 + a.count '\n'), s.2) := by
  have hstep : (Pos.start.after a).after (blank '\n').text = Pos.start.down (1 + a.count '\n') :=
    Pos.after_step_feed a
  rw [segments_append_feed, located_append, flatMap_text_segments, located_cons, hstep,
    located_down]

end Segment

section

open Segment

/-- Two texts with a line feed between them are scanned each on its own. The tokens are those of the
first text without its end token, which is its last token and its only one of this kind, and behind
them the tokens of the second text, moved by `Token.down`, further down by one line and by as many
lines as the first text has line feeds. The findings of the second text stand behind those of the
first in the same way, moved by `Finding.down`. -/
theorem scan_append_feed (a b : String) :
    ∃ (ts : List Token) (stop : Token),
      (scan a).1 = ts ++ [stop] ∧ stop.tag = .eof ∧ (∀ t ∈ ts, t.tag ≠ .eof) ∧
        (scan (a ++ "\n" ++ b)).1 =
          ts ++ (scan b).1.map (Token.down (1 + a.toList.count '\n')) ∧
        (scan (a ++ "\n" ++ b)).2 =
          (scan a).2 ++ (scan b).2.map (Finding.down (1 + a.toList.count '\n')) := by
  have hsource : (a ++ "\n" ++ b).toList = a.toList ++ '\n' :: b.toList := by
    rw [String.toList_append, String.toList_append, List.append_assoc]
    rfl
  -- both texts end where the second one ends, further down
  have hstop : Pos.start.after (a.toList ++ '\n' :: b.toList) =
      (Pos.start.after b.toList).down (1 + a.toList.count '\n') := by
    rw [Pos.after_append, Pos.after_cons, Pos.after_step_feed, Pos.down_after]
  obtain ⟨ts, stop, hscan, htag, hothers⟩ := scan_eq a
  refine ⟨ts, stop, hscan, htag, fun t ht => (hothers t ht).1, ?_, ?_⟩
  · have hts : (located Pos.start (segments a.toList)).filterMap token? = ts := by
      rw [scan_eq_located] at hscan
      exact (List.append_inj' hscan rfl).1
    rw [scan_eq_located, scan_eq_located b, List.map_append, hsource, hstop, located_append_feed]
    dsimp only
    -- the line feed itself is a blank, and gives nothing
    rw [List.filterMap_append, hts, List.filterMap_cons_none rfl, filterMap_down (token?_down _),
      List.append_assoc]
    rfl
  · rw [scan_eq_located, scan_eq_located a, scan_eq_located b, hsource, located_append_feed]
    dsimp only
    rw [List.filterMap_append, List.filterMap_cons_none rfl, filterMap_down (finding?_down _)]

end

end Tricode
