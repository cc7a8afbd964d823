import Mathlib.Data.List.Perm.Subperm
import Tricode.Proofs.Parser.Order
import Tricode.Proofs.Token.Spacing

/-!
# No token is blamed twice

Which token a finding is about can be read off its position only if no other token has the same. So
the tokens are numbered: `blamed ts` are the numbers of the tokens that the findings are about when
the positions in `ts` are the numbers. As positions are only passed on, the findings about `ts`
itself stand at the positions of just these tokens (`map_pos_parse`).

The numbers rise up to the first end token, which alone may be blamed more than once, and up to 51
times (`parse_blames_in_order`). In a text that was scanned, later tokens have later positions, and
the findings therefore come in the order of their positions.
-/

namespace Tricode

/-- The token moved to another place. -/
def Token.moved (place : Pos → Pos) (t : Token) : Token :=
  { t with pos := place t.pos }

/-- The tokens, each with its place in the list for its position. -/
def numbered (ts : List Token) : List Token :=
  ts.mapIdx fun i t => t.moved fun _ => ⟨1, i⟩

/-- The position of the token with the number `i`. -/
def posAt (ts : List Token) (i : Nat) : Pos :=
  (ts[i]?.getD .beyond).pos

/-- The numbers of the tokens that the findings are about, in the order of the findings. -/
def blamed (ts : List Token) : List Nat :=
  Parser.numbers (parse (numbered (Parser.cutoff ts))).2

namespace Parser

/-! ### Moving tokens -/

/-- Lists with an end token, the second of which is the first with its tokens moved. What is
reported is moved with them. -/
def relocation (place : Pos → Pos) : Alignment where
  states ts us := us = ts.map (Token.moved place) ∧ ∃ t ∈ ts, t.isEnd = true
  entries f g := g.pos = place f.pos
  length_eq h := by rw [h.1, List.length_map]
  tag_eq {ts us} h := by
    obtain ⟨rfl, t, ht, -⟩ := h
    cases ts with
    | nil => cases ht
    | cons t ts => rfl
  text_eq {ts us} h := by
    obtain ⟨rfl, t, ht, -⟩ := h
    cases ts with
    | nil => cases ht
    | cons t ts => rfl
  tail {ts us} h hend := by
    obtain ⟨rfl, t, ht, htend⟩ := h
    cases ts with
    | nil => cases ht
    | cons u ts =>
      refine ⟨rfl, t, ?_, htend⟩
      rcases List.mem_cons.1 ht with rfl | ht
      · exact absurd (by simpa [Token.isEnd] using htend) hend
      · exact ht
  entry {ts us} cause h := by
    obtain ⟨rfl, t, ht, -⟩ := h
    cases ts with
    | nil => cases ht
    | cons t ts => rfl

/-- Expressions of the same depth that are names both or not. -/
structure SameDepth (m n : Measured) : Prop where
  depth : m.depth = n.depth
  named : Option.Rel (fun _ _ => True) m.expr.name? n.expr.name?

/-- Expressions from tokens that are moved by `relocation` have the `SameDepth`. -/
theorem exprPairing_relocation (place : Pos → Pos) : ExprPairing (relocation place) SameDepth where
  depth_eq h := h.depth
  named h := h.named
  literal _ _ _ := ⟨rfl, .none⟩
  ident _ _ := ⟨rfl, .some trivial⟩
  unary _ _ hm _ := ⟨by rw [hm.depth], .none⟩
  binary _ _ _ hl hr _ := ⟨by rw [hl.depth, hr.depth], .none⟩
  call hf hargs _ := ⟨by rw [hf.depth, foldl_depth_eq (fun _ _ => SameDepth.depth) hargs], .none⟩
  assign _ _ _ hv _ := ⟨by rw [hv.depth], .none⟩

/-- Where tokens are `moved`, what is reported about them is moved. -/
theorem map_pos_parse_moved (place : Pos → Pos) {ts : List Token} (hts : ∃ t ∈ ts, t.isEnd = true) :
    (parse (ts.map (Token.moved place))).2.map Finding.pos =
      (parse ts).2.map fun f => place f.pos := by
  -- nothing has to be said about the trees, only the depths of expressions have to agree
  have hstmts : StmtPairing (relocation place) SameDepth (fun _ _ _ => True) fun _ _ _ => True := by
    constructor <;> intros <;> trivial
  have hfunctions : FunctionPairing (relocation place) (fun _ _ => True) (fun _ _ => True)
      fun _ _ => True := by
    constructor <;> intros <;> trivial
  obtain ⟨-, hfindings⟩ := parse_aligned (exprPairing_relocation place) hstmts hfunctions
    (A := relocation place) ⟨rfl, hts⟩
  generalize (parse ts).2 = fs at hfindings ⊢
  generalize (parse (ts.map (Token.moved place))).2 = gs at hfindings ⊢
  induction hfindings with
  | nil => rfl
  | cons hpos _ ih => rw [List.map_cons, List.map_cons, ih, hpos]

/-! ### Numbering -/

/-- The number that was written in the column. -/
theorem number_mk (i : Nat) : (⟨1, i⟩ : Pos).number = i :=
  Int.toNat_natCast i

/-- The tokens of `cutoff` are those of the list up to the end, and the end token is added if there
is none. -/
theorem getElem?_cutoff_eq_some_iff {ts : List Token} {i : Nat} {t : Token} :
    (cutoff ts)[i]? = some t ↔ i ≤ endOf ts ∧ t = ts[i]?.getD .beyond := by
  have hlength : endOf ts ≤ ts.length := List.findIdx_le_length
  have htake : (ts.take (endOf ts)).length = endOf ts := by
    rw [List.length_take]
    exact Nat.min_eq_left hlength
  -- in front of the end, at the end, or behind it, where there is nothing
  rcases Nat.lt_trichotomy i (endOf ts) with hlt | rfl | hgt
  · have hget : ts[i]? = some ts[i] := List.getElem?_eq_getElem (by omega)
    rw [cutoff, List.getElem?_append_left (by omega), List.getElem?_take_of_lt hlt, hget,
      Option.some.injEq, eq_comm]
    exact (and_iff_right (Nat.le_of_lt hlt)).symm
  · rw [cutoff, List.getElem?_append_right (by omega), htake, Nat.sub_self, List.getElem?_cons_zero,
      Option.some.injEq, eq_comm]
    exact (and_iff_right (Nat.le_refl _)).symm
  · have hnone : (cutoff ts)[i]? = none := by
      rw [List.getElem?_eq_none_iff, cutoff, List.length_append, htake, List.length_singleton]
      omega
    rw [hnone]
    exact ⟨fun h => (by cases h), fun h => absurd h.1 (by omega)⟩

/-- Among the tokens up to `endOf`, the last one is the only end token. -/
theorem isEnd_getD_iff {ts : List Token} {i : Nat} (hi : i ≤ endOf ts) :
    (ts[i]?.getD .beyond).isEnd = true ↔ i = endOf ts := by
  rcases Nat.lt_or_eq_of_le hi with hlt | rfl
  · have hlength : endOf ts ≤ ts.length := List.findIdx_le_length
    have hend : ts[i].isEnd = false := List.not_of_lt_findIdx hlt
    rw [List.getElem?_eq_getElem (by omega), Option.getD_some, hend]
    exact ⟨fun h => (by cases h), fun h => absurd h (by omega)⟩
  · refine ⟨fun _ => rfl, fun _ => ?_⟩
    by_cases hlt : endOf ts < ts.length
    · rw [List.getElem?_eq_getElem hlt]
      exact List.findIdx_getElem (w := hlt)
    · rw [List.getElem?_eq_none (by omega)]
      rfl

/-- The `numbered` tokens are those up to the end, each with its number in the column. -/
theorem getElem?_numbered_eq_some_iff {ts : List Token} {i : Nat} {u : Token} :
    (numbered (cutoff ts))[i]? = some u ↔
      i ≤ endOf ts ∧ u = (ts[i]?.getD .beyond).moved fun _ => ⟨1, i⟩ := by
  rw [numbered, List.getElem?_mapIdx, Option.map_eq_some_iff]
  constructor
  · rintro ⟨t, ht, rfl⟩
    obtain ⟨hi, rfl⟩ := getElem?_cutoff_eq_some_iff.1 ht
    exact ⟨hi, rfl⟩
  · rintro ⟨hi, rfl⟩
    exact ⟨_, getElem?_cutoff_eq_some_iff.2 ⟨hi, rfl⟩, rfl⟩

/-- The `numbered` tokens can be moved to where they stood before. -/
theorem map_moved_numbered (ts : List Token) :
    (numbered (cutoff ts)).map (Token.moved fun p => posAt ts p.number) = cutoff ts := by
  refine List.ext_getElem? fun i => Option.ext fun t => ?_
  rw [List.getElem?_map, Option.map_eq_some_iff, getElem?_cutoff_eq_some_iff]
  -- a token that is given a number and then moved to the position with that number is as before
  have hback : ((ts[i]?.getD .beyond).moved fun _ => ⟨1, i⟩).moved (fun p => posAt ts p.number) =
      ts[i]?.getD .beyond := by
    simp only [Token.moved, number_mk, posAt]
  constructor
  · rintro ⟨u, hu, rfl⟩
    obtain ⟨hi, rfl⟩ := getElem?_numbered_eq_some_iff.1 hu
    exact ⟨hi, hback⟩
  · rintro ⟨hi, rfl⟩
    exact ⟨_, getElem?_numbered_eq_some_iff.2 ⟨hi, rfl⟩, hback⟩

/-- The `numbered` tokens are a `Row` that ends with the number of the end token. -/
theorem row_numbered (ts : List Token) : Row (endOf ts) (numbered (cutoff ts)) where
  ascending := by
    refine List.pairwise_iff_getElem.2 fun i j hi hj hij => ?_
    obtain ⟨-, hu⟩ := getElem?_numbered_eq_some_iff.1 (List.getElem?_eq_getElem hi)
    obtain ⟨-, hv⟩ := getElem?_numbered_eq_some_iff.1 (List.getElem?_eq_getElem hj)
    rw [hu, hv]
    simpa only [Token.moved, number_mk] using hij
  closed :=
    ⟨_, List.mem_of_getElem? (getElem?_numbered_eq_some_iff.2 ⟨Nat.le_refl _, rfl⟩),
      (isEnd_getD_iff (Nat.le_refl _)).2 rfl⟩
  last u hu hend := by
    obtain ⟨i, hi⟩ := List.mem_iff_getElem?.1 hu
    obtain ⟨hle, rfl⟩ := getElem?_numbered_eq_some_iff.1 hi
    rw [Token.moved, number_mk]
    exact (isEnd_getD_iff hle).1 hend

/-- The findings of `parse` stand at the positions of the tokens that are `blamed`. -/
theorem map_pos_parse (ts : List Token) :
    (parse ts).2.map Finding.pos = (blamed ts).map (posAt ts) := by
  have hmoved := map_pos_parse_moved (fun p => posAt ts p.number) (row_numbered ts).closed
  rw [map_moved_numbered, parse_cutoff] at hmoved
  rw [hmoved, blamed, numbers, List.map_map]
  rfl

/-! ### The order of the findings -/

/-- Numbers that rise up to `stop` are below it at first, and then they are all `stop`. -/
theorem Rising.exists_eq_append {stop lo n : Nat} {is : List Nat} (h : Rising stop lo n is)
    (hle : ∀ i ∈ is, i ≤ stop) :
    ∃ before k, is = before ++ List.replicate k stop ∧ (before ++ [stop]).Pairwise (· < ·) ∧
      k ≤ n := by
  induction is with
  | nil => exact ⟨[], 0, rfl, List.pairwise_singleton _ _, Nat.zero_le n⟩
  | cons i is ih =>
    obtain ⟨hpairwise, hge, hcount⟩ := h
    obtain ⟨hfirst, hpairwise⟩ := List.pairwise_cons.1 hpairwise
    obtain ⟨hi, hle⟩ := List.forall_mem_cons.1 hle
    rcases Nat.lt_or_eq_of_le hi with hlt | rfl
    · have htail : Rising stop lo n is :=
        ⟨hpairwise, (List.forall_mem_cons.1 hge).2, Nat.le_trans List.count_le_count_cons hcount⟩
      obtain ⟨before, k, rfl, hbefore, hk⟩ := ih htail hle
      refine ⟨i :: before, k, rfl, List.pairwise_cons.2 ⟨fun j hj => ?_, hbefore⟩, hk⟩
      rcases List.mem_append.1 hj with hj | hj
      · have hij := hfirst j (List.mem_append_left _ hj)
        omega
      · rwa [List.mem_singleton.1 hj]
    · -- what comes behind `stop` is not below it, and so the same
      have hsame : ∀ j ∈ is, j = i := by
        intro j hj
        have hij := hfirst j hj
        have hji := hle j hj
        omega
      have hall : i :: is = List.replicate (is.length + 1) i :=
        congrArg (i :: ·) (List.eq_replicate_of_mem hsame)
      rw [hall, List.count_replicate_self] at hcount
      exact ⟨[], is.length + 1, hall, List.pairwise_singleton _ _, hcount⟩

/-- The numbers of the tokens that are `blamed` rise. -/
theorem rising_blamed (ts : List Token) :
    Rising (endOf ts) 0 51 (blamed ts) ∧ ∀ i ∈ blamed ts, i ≤ endOf ts := by
  have hprogram : Resumes (endOf ts) 0 51 (program maxNesting) (numbered (cutoff ts)) :=
    resumes_program maxNesting _
  obtain ⟨⟨hrest, -, hrising, hle⟩, -⟩ := hprogram (row_numbered ts) (Nat.zero_le _)
  exact ⟨hrising, fun i hi => Nat.le_trans (hle i hi) hrest.front_le_stop⟩

/-- There are no more numbers below `stop` than `stop`. -/
theorem length_le_of_pairwise {before : List Nat} {stop : Nat}
    (h : (before ++ [stop]).Pairwise (· < ·)) : before.length ≤ stop := by
  obtain ⟨hbefore, -, hstop⟩ := List.pairwise_append.1 h
  have hrange : before ⊆ List.range stop :=
    fun i hi => List.mem_range.2 (hstop i hi stop (List.mem_singleton_self stop))
  have hlength := (List.subperm_of_subset (hbefore.imp Nat.ne_of_lt) hrange).length_le
  rwa [List.length_range] at hlength

/-- The number `endOf` can be told from the words. -/
theorem endOf_eq (ts : List Token) : endOf ts = (words ts).findIdx fun w => w.1 == .eof := by
  rw [words, List.findIdx_map]
  rfl

/-- The words of `cutoff` can be told from the words. -/
theorem words_cutoff (ts : List Token) :
    words (cutoff ts) = (words ts).take (endOf ts) ++ [(words ts)[endOf ts]?.getD (.eof, "")] := by
  rw [cutoff, words_append]
  unfold words
  rw [List.map_take, List.getElem?_map]
  cases ts[endOf ts]? <;> rfl

/-- The `numbered` tokens can be told from the words. -/
theorem numbered_eq (ts : List Token) :
    numbered ts = (words ts).mapIdx fun i w => ⟨w.1, w.2, ⟨1, i⟩⟩ := by
  refine List.ext_getElem? fun i => ?_
  rw [numbered, words, List.getElem?_mapIdx, List.getElem?_mapIdx, List.getElem?_map,
    Option.map_map]
  rfl

/-- Which tokens are `blamed` is a matter of the words. -/
theorem blamed_eq_of_words {ts us : List Token} (h : words us = words ts) :
    blamed us = blamed ts := by
  unfold blamed
  rw [numbered_eq, numbered_eq, words_cutoff, words_cutoff, endOf_eq us, endOf_eq ts, h]

end Parser

open Tricode.Parser

/-! ### Positions in a text -/

/-- The positions of the tokens are some of those of all the items. -/
theorem sublist_map_pos (items : List Item) :
    ((items.filterMap Item.token?).map Token.pos).Sublist (items.map Item.pos) := by
  induction items with
  | nil => exact .slnil
  | cons item items ih =>
    cases item with
    | token t => exact ih.cons_cons _
    | stray f => exact ih.cons _

/-- The tokens of a `scan` stand one behind the other. -/
theorem pairwise_pos_scan (source : String) :
    ((scan source).1.map Token.pos).Pairwise Pos.Before := by
  have hitems := (Segment.partition_segments [] source.toList).pairwise_before.1
  rw [scan_eq_scanned, List.map_append]
  exact hitems.sublist ((sublist_map_pos _).append (List.Sublist.refl _))

/-- The only end token of a `scan` is its last token, and stands behind the last character of the
text. -/
theorem endOf_scan (source : String) :
    endOf (scan source).1 = (scan source).1.length - 1 ∧
      posAt (scan source).1 (endOf (scan source).1) = Pos.behind source.toList := by
  obtain ⟨ts, stop, hscan, hstop, hts⟩ := scan_eq source
  have hends : ∀ t ∈ ts, t.isEnd = false := fun t ht => by simpa [Token.isEnd] using (hts t ht).1
  have hend : endOf (ts ++ [stop]) = ts.length := endOf_append hends (by simp [Token.isEnd, hstop])
  have hlast : stop.pos = Pos.behind source.toList := by
    have hgetLast : (scan source).1.getLast? = some stop := by rw [hscan, List.getLast?_concat]
    rw [scan_eq_scanned, List.getLast?_concat] at hgetLast
    rw [← Option.some.inj hgetLast]
    rfl
  rw [hscan, hend]
  refine ⟨by simp, ?_⟩
  rw [posAt, List.getElem?_concat_length]
  exact hlast

/-- Tokens further back in a text stand further back, by `posAt`. -/
theorem before_posAt {source : String} {i j : Nat} (hij : i < j) (hj : j ≤ endOf (scan source).1) :
    (posAt (scan source).1 i).Before (posAt (scan source).1 j) := by
  have hlength : 0 < (scan source).1.length := by
    rw [scan_eq_scanned, List.length_append, List.length_singleton]
    exact Nat.succ_pos _
  have hend := (endOf_scan source).1
  have hpairwise := List.pairwise_map.1 (pairwise_pos_scan source)
  rw [posAt, posAt, List.getElem?_eq_getElem (by omega), List.getElem?_eq_getElem (by omega)]
  exact List.pairwise_iff_getElem.1 hpairwise i j (by omega) (by omega) hij

/-- The tokens at which there are findings, those that are `blamed`, are determined by the `words`
alone, whatever the positions are. Their numbers rise up to the first end token, or the place where
it is missing, `endOf`; only this one may be blamed again, and there are at most 51 findings about
it. In a text, therefore, the positions of the findings increase up to the end of the text, which
alone may be repeated, and there are at most 51 findings more than there are tokens in front of the
end. -/
theorem parse_blames_in_order :
    (∀ ts : List Token,
      (∀ us, words us = words ts → (parse us).2.map Finding.pos = (blamed ts).map (posAt us)) ∧
        ∃ before k, blamed ts = before ++ List.replicate k (endOf ts) ∧
          (before ++ [endOf ts]).Pairwise (· < ·) ∧ k ≤ 51) ∧
    ∀ source : String,
      (∃ before k, (parse (scan source).1).2.map Finding.pos =
          before ++ List.replicate k (Pos.behind source.toList) ∧
        (before ++ [Pos.behind source.toList]).Pairwise Pos.Before ∧ k ≤ 51) ∧
      (parse (scan source).1).2.length ≤ ((scan source).1.length - 1) + 51 := by
  have horder : ∀ ts : List Token, ∃ before k, blamed ts = before ++ List.replicate k (endOf ts) ∧
      (before ++ [endOf ts]).Pairwise (· < ·) ∧ k ≤ 51 := by
    intro ts
    obtain ⟨hrising, hle⟩ := rising_blamed ts
    exact hrising.exists_eq_append hle
  refine ⟨fun ts => ⟨fun us hus => ?_, horder ts⟩, fun source => ?_⟩
  · rw [map_pos_parse, blamed_eq_of_words hus]
  · obtain ⟨before, k, hblamed, hbefore, hk⟩ := horder (scan source).1
    obtain ⟨hend, hstop⟩ := endOf_scan source
    have hpos := map_pos_parse (scan source).1
    rw [hblamed, List.map_append, List.map_replicate, hstop] at hpos
    refine ⟨⟨before.map (posAt (scan source).1), k, hpos, ?_, hk⟩, ?_⟩
    · rw [← hstop, ← List.map_singleton, ← List.map_append, List.pairwise_map]
      refine hbefore.imp_of_mem fun {i j} _ hj hij => before_posAt hij ?_
      -- the later number is the end or below it
      rcases List.mem_append.1 hj with hj | hj
      · exact Nat.le_of_lt ((List.pairwise_append.1 hbefore).2.2 j hj _ (List.mem_singleton_self _))
      · exact Nat.le_of_eq (List.mem_singleton.1 hj)
    · have hlength := congrArg List.length hpos
      rw [List.length_map, List.length_append, List.length_map, List.length_replicate] at hlength
      have hle := length_le_of_pairwise hbefore
      omega

/-- A statement that assigns to a number, then fifty blocks that are not closed, and in the
innermost a statement without its semicolon. The tokens all have the same position, and there is no
end token. -/
def openBlocks : List Token :=
  let sign (tag : Tag) : Token := ⟨tag, "", .start⟩
  let x : Token := ⟨.identifier, "x", .start⟩
  let one : Token := ⟨.intLiteral, "1", .start⟩
  [⟨.keyword, "int", .start⟩, x, sign .leftParen, sign .rightParen, sign .leftBrace, one,
    sign .assign, one, sign .semicolon] ++
    (List.replicate 49 [⟨.keyword, "if", .start⟩, sign .leftParen, x, sign .rightParen,
      sign .leftBrace]).flatten ++ [x]

/-- The assignment sign is `blamed` once, and the end as often as it can be. In a text with only two
of the blocks, the positions rise up to its end, which is repeated three times. -/
theorem parse_blames_in_order_openBlocks :
    blamed openBlocks = 6 :: List.replicate 51 255 ∧ endOf openBlocks = 255 ∧
      (parse openBlocks).2.map Finding.pos = (blamed openBlocks).map (posAt openBlocks) ∧
      (parse (scan "int f()\x7b1=2;if(x)\x7bx").1).2.map Finding.pos =
        ⟨1, 10⟩ :: List.replicate 3 ⟨1, 20⟩ ∧
      (parse (scan "int f()\x7b1=2;if(x)\x7bx").1).2.length ≤ 15 + 51 := by
  have hpos := (parse_blames_in_order.1 openBlocks).1 openBlocks rfl
  have hle := (parse_blames_in_order.2 "int f()\x7b1=2;if(x)\x7bx").2
  have hlength : (scan "int f()\x7b1=2;if(x)\x7bx").1.length = 16 := by decide +kernel
  rw [hlength] at hle
  exact ⟨by decide +kernel, by decide +kernel, hpos, by decide +kernel, hle⟩

end Tricode
