import Tricode.Proofs.Lexemes

/-!
# Scanning partitions a text at exact positions

`Partition before rest items` says that `rest`, which stands behind the text `before`, is a row of
blanks, tokens and characters that begin no token, and that `items` are the latter two in the order
of the text. Each item stands where the text in front of it ends. That position is counted afresh
for every item (`Pos.behind`): one line more than there are line feeds in front of it, and one
column more than there are characters since the last of them.

`scan_partition` says that the tokens and the findings of a scan are the items of such a partition,
with one end token behind them. It follows from the partition that the items are the text without
its blanks (`Partition.filter_eq`), and that they stand one behind the other
(`Partition.pairwise_before`).
-/

namespace Tricode

/-! ### Positions -/

namespace Pos

/-- The position behind a text, counted from the text's beginning. -/
def behind (before : List Char) : Pos :=
  ⟨1 + before.count '\n', 1 + (before.reverse.takeWhile (· != '\n')).length⟩

/-- Lines are compared first, then columns. -/
def Before (p q : Pos) : Prop :=
  p.line < q.line ∨ p.line = q.line ∧ p.column < q.column

theorem Before.trans {p q r : Pos} (hpq : p.Before q) (hqr : q.Before r) : p.Before r := by
  unfold Before at *
  omega

/-- A `step` over any character leads to a later position. -/
theorem before_step (p : Pos) (c : Char) : p.Before (p.step c) := by
  unfold step
  split
  · left
    show p.line < p.line + 1
    omega
  · right
    refine ⟨rfl, ?_⟩
    show p.column < p.column + 1
    omega

/-- The position `after` a text that is not empty is later. -/
theorem before_after (p : Pos) {text : List Char} (h : text ≠ []) : p.Before (p.after text) := by
  induction text generalizing p with
  | nil => exact absurd rfl h
  | cons c text ih =>
    rw [after_cons]
    by_cases htext : text = []
    · rw [htext, after_nil]
      exact p.before_step c
    · exact (p.before_step c).trans (ih _ htext)

/-- A `step` by one character agrees with counting again. -/
theorem step_behind (before : List Char) (c : Char) :
    (behind before).step c = behind (before ++ [c]) := by
  unfold step behind
  rw [List.reverse_append, List.reverse_singleton, List.singleton_append, List.count_append]
  by_cases hc : c = '\n'
  · -- a line feed opens a line in which nothing stands yet
    rw [if_pos hc, hc, List.takeWhile_cons_of_neg (by simp)]
    simp only [List.count_singleton_self, List.length_nil, Pos.mk.injEq]
    omega
  · have hne : (c != '\n') = true := by simpa using hc
    have hcount : [c].count '\n' = 0 := List.count_eq_zero.2 (by simpa using Ne.symm hc)
    rw [if_neg hc, List.takeWhile_cons_of_pos (p := (· != '\n')) hne, hcount]
    simp only [List.length_cons, Pos.mk.injEq]
    omega

/-- Going on from `behind` a text leads to the end of the longer text. -/
theorem after_behind (before text : List Char) :
    (behind before).after text = behind (before ++ text) := by
  induction text generalizing before with
  | nil => rw [after_nil, List.append_nil]
  | cons c text ih => rw [after_cons, step_behind, ih, List.append_assoc, List.singleton_append]

theorem start_eq_behind : start = behind [] := rfl

end Pos

/-! ### Partitions -/

/-- What a scan finds in a text. -/
inductive Item where
  | token (t : Token)
  | stray (f : Finding LexicalCause)

namespace Item

/-- Where an item stands. -/
def pos : Item → Pos
  | token t => t.pos
  | stray f => f.pos

/-- The characters that an item covers. -/
def chars : Item → List Char
  | token t => t.text.toList
  | stray f => [f.cause.char]

/-- The token that an item is. -/
def token? : Item → Option Token
  | token t => some t
  | stray _ => none

/-- The finding that an item is. -/
def finding? : Item → Option (Finding LexicalCause)
  | token _ => none
  | stray f => some f

end Item

/-- The characters that may stand between tokens. -/
def blanks : List Char := [' ', '\t', '\r', '\n']

/-- The characters that begin a token whatever follows, apart from letters and digits. -/
def marks : List Char := ['_', '+', '-', '*', '/', '=', '!', '<', '>', '(', ')', '{', '}', ';', ',']

/-- In front of `rest` the character `c` is no blank and begins no token. The characters `&` and `|`
begin one only when they are doubled. -/
def Unreadable (c : Char) (rest : List Char) : Prop :=
  c ∉ blanks ∧ c.isAlphanum = false ∧ c ∉ marks ∧ (c = '&' ∨ c = '|' → rest.head? ≠ some c)

/-- Behind the text `before`, the text `rest` is a row of blanks and of the items. -/
inductive Partition : (before rest : List Char) → List Item → Prop where
  | done {before : List Char} : Partition before [] []
  | blank {before cs : List Char} {items : List Item} {c : Char} (hc : c ∈ blanks)
    (rest : Partition (before ++ [c]) cs items) : Partition before (c :: cs) items
  | token {before cs : List Char} {items : List Item} {t : Token} (hpos : t.pos = Pos.behind before)
    (htag : t.tag ≠ .eof) (hne : t.text.toList ≠ []) (hblank : ∀ c ∈ t.text.toList, c ∉ blanks)
    (rest : Partition (before ++ t.text.toList) cs items) :
    Partition before (t.text.toList ++ cs) (.token t :: items)
  | stray {before cs : List Char} {items : List Item} {f : Finding LexicalCause}
    (hpos : f.pos = Pos.behind before) (hc : Unreadable f.cause.char cs)
    (rest : Partition (before ++ [f.cause.char]) cs items) :
    Partition before (f.cause.char :: cs) (.stray f :: items)

namespace Partition

variable {before rest : List Char} {items : List Item}

/-- The items of a `Partition` cover all of the text that is not blank, each character once and in
order. -/
theorem filter_eq (h : Partition before rest items) :
    rest.filter (· ∉ blanks) = items.flatMap Item.chars := by
  induction h with
  | done => rfl
  | blank hc _ ih => rw [List.filter_cons_of_neg (by simpa using hc), ih]
  | token _ _ _ hblank _ ih =>
    rw [List.filter_append, ih, List.flatMap_cons, List.filter_eq_self.2 (by simpa using hblank)]
    rfl
  | stray _ hc _ ih =>
    rw [List.filter_cons_of_pos (by simpa using hc.1), ih]
    rfl

/-- The items of a `Partition` stand one behind the other, and in front of the end of the text. -/
theorem pairwise_before (h : Partition before rest items) :
    (items.map Item.pos ++ [Pos.behind (before ++ rest)]).Pairwise Pos.Before ∧
      ∀ p ∈ items.map Item.pos ++ [Pos.behind (before ++ rest)],
        p = Pos.behind before ∨ (Pos.behind before).Before p := by
  -- what comes behind a piece of text is later than what comes in front of it
  have hlater : ∀ {before text : List Char} {p : Pos}, text ≠ [] →
      (p = Pos.behind (before ++ text) ∨ (Pos.behind (before ++ text)).Before p) →
        (Pos.behind before).Before p := by
    intro before text p htext hp
    have hstep := (Pos.behind before).before_after htext
    rw [Pos.after_behind] at hstep
    rcases hp with rfl | hp
    · exact hstep
    · exact hstep.trans hp
  induction h with
  | done => simp
  | @blank before cs items c hc _ ih =>
    obtain ⟨hpairwise, hall⟩ := ih
    rw [List.append_assoc, List.singleton_append] at hpairwise hall
    exact ⟨hpairwise, fun p hp => .inr (hlater (List.cons_ne_nil c []) (hall p hp))⟩
  | @token before cs items t hpos _ hne _ _ ih =>
    obtain ⟨hpairwise, hall⟩ := ih
    rw [List.append_assoc] at hpairwise hall
    rw [List.map_cons, List.cons_append, Item.pos, hpos]
    have hafter := fun p hp => hlater hne (hall p hp)
    exact ⟨List.pairwise_cons.2 ⟨hafter, hpairwise⟩,
      List.forall_mem_cons.2 ⟨.inl rfl, fun p hp => .inr (hafter p hp)⟩⟩
  | @stray before cs items f hpos _ _ ih =>
    obtain ⟨hpairwise, hall⟩ := ih
    rw [List.append_assoc, List.singleton_append] at hpairwise hall
    rw [List.map_cons, List.cons_append, Item.pos, hpos]
    have hafter := fun p hp => hlater (List.cons_ne_nil f.cause.char []) (hall p hp)
    exact ⟨List.pairwise_cons.2 ⟨hafter, hpairwise⟩,
      List.forall_mem_cons.2 ⟨.inl rfl, fun p hp => .inr (hafter p hp)⟩⟩

end Partition

/-! ### Segments -/

namespace Segment

theorem isBlank_eq_true_iff {c : Char} : isBlank c = true ↔ c ∈ blanks := by
  simp [isBlank, blanks, or_assoc]

/-- A class of characters without `blanks`. -/
theorem not_mem_blanks {p : Char → Bool} (hp : blanks.all fun c => !p c) {c : Char}
    (hc : p c = true) :
    c ∉ blanks := by
  intro hmem
  have hfalse := List.all_eq_true.1 hp c hmem
  rw [hc] at hfalse
  cases hfalse

theorem not_mem_blanks_of_mem_takeWhile {p : Char → Bool} (hp : blanks.all fun c => !p c)
    {cs : List Char} {c : Char} (hc : c ∈ cs.takeWhile p) : c ∉ blanks :=
  not_mem_blanks hp (List.all_eq_true.1 List.all_takeWhile c hc)

/-- What is known about a segment in front of `rest`. -/
def Admissible (rest : List Char) : Segment → Prop
  | blank c => c ∈ blanks
  | lexeme tag chars => tag ≠ .eof ∧ chars ≠ [] ∧ ∀ c ∈ chars, c ∉ blanks
  | stray cause => Unreadable cause.char rest

/-- A `number` is `Admissible`: it has no blank in it. -/
theorem admissible_number {c : Char} (hc : c.isDigit = true) (cs : List Char) :
    (number c cs).1.Admissible (number c cs).2 := by
  have hdigits : blanks.all fun c => !c.isDigit := by decide
  have hfirst : c ∉ blanks := not_mem_blanks hdigits hc
  unfold number
  split
  · refine ⟨by decide, by simp, ?_⟩
    simp only [List.cons_append, List.forall_mem_cons, List.forall_mem_append]
    exact ⟨hfirst, fun _ => not_mem_blanks_of_mem_takeWhile hdigits, by decide,
      fun _ => not_mem_blanks_of_mem_takeWhile hdigits⟩
  · exact ⟨by decide, by simp,
      List.forall_mem_cons.2 ⟨hfirst, fun _ => not_mem_blanks_of_mem_takeWhile hdigits⟩⟩

/-- A character that is no operator and no delimiter by itself is none of the `marks`. -/
theorem not_mem_marks {c : Char} (hword : startsWord c = false) (hmark : markTag c = none) :
    c ∉ marks := by
  intro hc
  simp only [marks, List.mem_cons, List.not_mem_nil, or_false] at hc
  rcases hc with
    rfl | rfl | rfl | rfl | rfl | rfl | rfl | rfl | rfl | rfl | rfl | rfl | rfl | rfl | rfl
  · exact absurd hword (by decide)
  all_goals cases hmark

/-- A `mark` is `Admissible` if it begins no word and no number, in front of text with which it
makes no operator of two characters. -/
theorem admissible_mark {c : Char} {rest : List Char} (hblank : c ∉ blanks)
    (hword : startsWord c = false) (hdigit : c.isDigit = false)
    (hpair : c = '&' ∨ c = '|' → rest.head? ≠ some c) : (mark c).Admissible rest := by
  unfold mark
  split
  · next tag htag =>
    have hne : tag ≠ .eof := fun h => markTag_not_mem htag (by simp [h])
    exact ⟨hne, by simp, by simpa using hblank⟩
  · next htag =>
    have hchar : ∀ b : Bool, (if b then LexicalCause.invalidOperator c
        else LexicalCause.invalidCharacter c).char = c := by
      intro b
      cases b <;> rfl
    -- a letter would begin a word
    have halpha : c.isAlpha = false := by
      rw [startsWord, Bool.or_eq_false_iff] at hword
      exact hword.1
    show Unreadable (LexicalCause.char _) rest
    rw [hchar]
    exact ⟨hblank, by rw [Char.isAlphanum, halpha, hdigit]; rfl, not_mem_marks hword htag, hpair⟩

/-- The `first` segment of a text is `Admissible` where it stands. -/
theorem admissible_first (c : Char) (cs : List Char) :
    (first c cs).1.Admissible (first c cs).2 := by
  have hwords : blanks.all fun c => !startsWord c := by decide
  have hinner : blanks.all fun c => !continuesWord c := by decide
  unfold first
  split
  · next hblank => exact isBlank_eq_true_iff.1 hblank
  · next hblank =>
    have hfirst : c ∉ blanks := fun hc => hblank (isBlank_eq_true_iff.2 hc)
    split
    · next hword =>
      refine ⟨(spelled_word hword _).1, by simp, ?_⟩
      exact List.forall_mem_cons.2
        ⟨not_mem_blanks hwords hword, fun _ => not_mem_blanks_of_mem_takeWhile hinner⟩
    · next hword =>
      rw [Bool.not_eq_true] at hword
      split
      · next hdigit => exact admissible_number hdigit cs
      · next hdigit =>
        rw [Bool.not_eq_true] at hdigit
        split
        · next d ds =>
          split
          · next tag htag =>
            -- the second character of an operator is no blank either
            have hne : tag ≠ .eof := fun h => pairTag_not_mem htag (by simp [h])
            have hd : d ∉ blanks := by
              unfold pairTag at htag
              split at htag
              iterate 6 decide
              cases htag
            exact ⟨hne, by simp, by simp [hfirst, hd]⟩
          · next htag =>
            refine admissible_mark hfirst hword hdigit fun hc hd => ?_
            obtain rfl : d = c := by simpa using hd
            rcases hc with rfl | rfl <;> cases htag
        · exact admissible_mark hfirst hword hdigit fun _ => by simp

/-- The item that a placed segment becomes. -/
def item? : Pos × Segment → Option Item
  | (_, blank _) => none
  | (p, lexeme tag chars) => some (.token ⟨tag, String.ofList chars, p⟩)
  | (p, stray cause) => some (.stray ⟨cause, p⟩)

theorem item?_bind_token? (s : Pos × Segment) : (item? s).bind Item.token? = token? s := by
  obtain ⟨p, s⟩ := s
  cases s <;> rfl

theorem item?_bind_finding? (s : Pos × Segment) : (item? s).bind Item.finding? = finding? s := by
  obtain ⟨p, s⟩ := s
  cases s <;> rfl

/-- The `segments` of a text make a `Partition` of it. -/
theorem partition_segments (before rest : List Char) :
    Partition before rest ((located (Pos.behind before) (segments rest)).filterMap item?) := by
  induction hn : rest.length using Nat.strongRecOn generalizing before rest with
  | ind n ih =>
    cases rest with
    | nil => exact .done
    | cons c cs =>
      have hlt : (first c cs).2.length < n := hn ▸ length_first_lt c cs
      have hrest := ih _ hlt (before ++ (first c cs).1.text) (first c cs).2 rfl
      have hadmissible := admissible_first c cs
      rw [segments_cons, located_cons, Pos.after_behind]
      rw [← text_first_append c cs]
      -- one step of the partition for each kind of segment
      cases hs : (first c cs).1 with
      | blank b =>
        rw [hs] at hrest hadmissible
        exact .blank hadmissible hrest
      | lexeme tag chars =>
        rw [hs] at hrest hadmissible
        obtain ⟨htag, hne, hblank⟩ := hadmissible
        have htext : (String.ofList chars).toList = chars := String.toList_ofList
        have htoken := @Partition.token before (first c cs).2 _
          ⟨tag, String.ofList chars, Pos.behind before⟩ rfl htag (by rwa [htext]) (by rwa [htext])
          (by rw [htext]; exact hrest)
        rw [htext] at htoken
        exact htoken
      | stray cause =>
        rw [hs] at hrest hadmissible
        exact @Partition.stray before (first c cs).2 _
          ⟨cause, Pos.behind before⟩ rfl hadmissible hrest

end Segment

/-- A text has a `Partition` into blanks, tokens and characters that begin no token. The tokens in
order, with one end token at the end of the text behind them, and the strays in order are what
scanning gives, each where the text in front of it ends. Nothing but blanks is left out, nothing is
covered twice, and the positions of all of them increase in the order of the text. -/
theorem scan_partition (source : String) :
    ∃ items : List Item,
      Partition [] source.toList items ∧
        (scan source).1 = items.filterMap Item.token? ++ [⟨.eof, "", Pos.behind source.toList⟩] ∧
        (scan source).2 = items.filterMap Item.finding? ∧
        source.toList.filter (· ∉ blanks) = items.flatMap Item.chars ∧
        (items.map Item.pos ++ [Pos.behind source.toList]).Pairwise Pos.Before := by
  have hpartition := Segment.partition_segments [] source.toList
  refine ⟨_, hpartition, ?_, ?_, hpartition.filter_eq, hpartition.pairwise_before.1⟩
  · rw [List.filterMap_filterMap, funext Segment.item?_bind_token?]
    have hstop : Pos.start.after source.toList = Pos.behind source.toList := by
      rw [Pos.start_eq_behind, Pos.after_behind, List.nil_append]
    rw [scan_eq_located, hstop]
    rfl
  · rw [List.filterMap_filterMap, funext Segment.item?_bind_finding?]
    rw [scan_eq_located]
    rfl

end Tricode
