import Tricode.Proofs.Token.Longest

/-!
# Words with blanks between them

`Spaced words text` says that `text` is a list of words with runs of blanks between them. If each
word is a lexeme with its tag, then a scan of the text finds these words again, and nothing else
(`scan_spaced`). A lexeme in front of a blank is the longest one there, whatever the text is,
because no lexeme has a blank in it (`Lexeme.longestLexeme`). So no word is joined with the next one
or cut in two.

The tokens of a scan are lexemes. They can be written with single spaces between them, therefore,
and scanned again without change.
-/

namespace Tricode

/-- The words of the tokens, without their places. -/
def words (ts : List Token) : List (Tag × String) :=
  ts.map fun t => (t.tag, t.text)

theorem words_append (ts us : List Token) : words (ts ++ us) = words ts ++ words us :=
  List.map_append

/-- The texts of the tokens with single spaces between them. -/
def joined (ts : List Token) : String :=
  " ".intercalate (ts.map Token.text)

/-- The text is made of the words in their order. A run of blanks stands behind each of them, which
is not empty in front of another word. -/
inductive Spaced : List (Tag × String) → List Char → Prop where
  | nil : Spaced [] []
  | cons {word : Tag × String} {others : List (Tag × String)} {gap text : List Char}
    (hgap : ∀ c ∈ gap, c ∈ blanks) (hne : others ≠ [] → gap ≠ []) (hothers : Spaced others text) :
    Spaced (word :: others) (word.2.toList ++ (gap ++ text))

/-! ### Longest match with blanks -/

/-- A `Lexeme` is the longest one in front of a blank and at the end of the text. -/
theorem Lexeme.longestLexeme {tag : Tag} {chars rest : List Char} (h : Lexeme tag chars)
    (hrest : ∀ c ∈ rest.head?, c ∈ blanks) : LongestLexeme tag chars (chars ++ rest) := by
  refine ⟨h, List.prefix_append _ _, fun tag' chars' h' hbegins => ?_⟩
  by_contra hlt
  cases rest with
  | nil =>
    rw [List.append_nil] at hbegins
    exact hlt hbegins.length_le
  | cons c rest =>
    -- a longer one would have the blank in it
    have hthrough : chars ++ [c] <+: chars' := by
      refine List.prefix_of_prefix_length_le ⟨rest, by rw [List.append_assoc]; rfl⟩ hbegins ?_
      rw [List.length_append, List.length_singleton]
      omega
    have hmem : c ∈ chars' := hthrough.subset (List.mem_append_right _ List.mem_cons_self)
    exact h'.not_mem_blanks hmem (hrest c rfl)

namespace LongestMatch

variable {before rest : List Char} {items : List Item}

/-- `LongestMatch` goes on behind blanks. -/
theorem append_blanks {gap : List Char} (hgap : ∀ c ∈ gap, c ∈ blanks)
    (h : LongestMatch (before ++ gap) rest items) : LongestMatch before (gap ++ rest) items := by
  induction gap generalizing before with
  | nil => rwa [List.append_nil] at h
  | cons c gap ih =>
    obtain ⟨hc, hgap⟩ := List.forall_mem_cons.1 hgap
    refine .blank hc (ih hgap ?_)
    rwa [List.append_assoc]

/-- Every token that longest match finds is a `Lexeme`. -/
theorem lexeme_of_mem (h : LongestMatch before rest items) {t : Token} (ht : Item.token t ∈ items) :
    Lexeme t.tag t.text.toList := by
  induction h with
  | done => cases ht
  | blank _ _ ih => exact ih ht
  | token _ _ hlongest _ ih =>
    rcases List.mem_cons.1 ht with heq | ht
    · cases heq
      exact hlongest.lexeme
    · exact ih ht
  | stray _ _ _ _ _ ih =>
    rcases List.mem_cons.1 ht with heq | ht
    · cases heq
    · exact ih ht

end LongestMatch

/-! ### Scanning a spaced text -/

namespace Spaced

variable {ws : List (Tag × String)} {text : List Char}

/-- What follows a word in a `Spaced` text begins with a blank. -/
theorem head?_mem_blanks {gap : List Char} (h : Spaced ws text) (hgap : ∀ c ∈ gap, c ∈ blanks)
    (hne : ws ≠ [] → gap ≠ []) : ∀ c ∈ (gap ++ text).head?, c ∈ blanks := by
  intro c hc
  cases gap with
  | cons d gap =>
    obtain rfl : d = c := Option.some.inj hc
    exact hgap d List.mem_cons_self
  | nil =>
    cases h with
    | nil => cases hc
    | cons => exact absurd rfl (hne (List.cons_ne_nil _ _))

/-- Longest match finds the words of a `Spaced` text one by one, wherever it stands. -/
theorem longestMatch (h : Spaced ws text) (hws : ∀ w ∈ ws, Lexeme w.1 w.2.toList)
    (before : List Char) :
    ∃ ts : List Token, LongestMatch before text (ts.map Item.token) ∧ words ts = ws := by
  induction h generalizing before with
  | nil => exact ⟨[], .done, rfl⟩
  | @cons word others gap text hgap hne hothers ih =>
    obtain ⟨hword, hws⟩ := List.forall_mem_cons.1 hws
    obtain ⟨ts, hmatch, hts⟩ := ih hws (before ++ word.2.toList ++ gap)
    -- the blank behind a word keeps it from being longer
    have hlongest : LongestLexeme word.1 word.2.toList (word.2.toList ++ (gap ++ text)) :=
      hword.longestLexeme (hothers.head?_mem_blanks hgap hne)
    refine ⟨⟨word.1, word.2, Pos.behind before⟩ :: ts, ?_, congrArg (word :: ·) hts⟩
    exact .token rfl rfl hlongest (.append_blanks hgap hmatch)

/-- The words of a `Spaced` text are what a `scan` of the text finds. -/
theorem scan_eq (h : Spaced ws text) (hws : ∀ w ∈ ws, Lexeme w.1 w.2.toList) {lead : List Char}
    (hlead : ∀ c ∈ lead, c ∈ blanks) :
    words (scan (String.ofList (lead ++ text))).1 = ws ++ [(.eof, "")] ∧
      (scan (String.ofList (lead ++ text))).2 = [] := by
  obtain ⟨ts, hmatch, hts⟩ := h.longestMatch hws lead
  have hscanned : ts.map Item.token = scanned (String.ofList (lead ++ text)) := by
    rw [← longestMatch_iff, String.toList_ofList]
    exact .append_blanks hlead hmatch
  have htokens : (ts.map Item.token).filterMap Item.token? = ts := by
    rw [List.filterMap_map]
    exact List.filterMap_some
  have hfindings : (ts.map Item.token).filterMap Item.finding? = [] := by
    rw [List.filterMap_map]
    exact List.filterMap_eq_nil_iff.2 fun _ _ => rfl
  rw [scan_eq_scanned, ← hscanned]
  refine ⟨?_, hfindings⟩
  rw [htokens, words_append, hts]
  rfl

end Spaced

/-! ### Tokens with single spaces between them -/

theorem lexeme_of_mem_scanned {source : String} {t : Token}
    (ht : t ∈ (scanned source).filterMap Item.token?) : Lexeme t.tag t.text.toList := by
  obtain ⟨item, hitem, heq⟩ := List.mem_filterMap.1 ht
  cases item with
  | token u =>
    obtain rfl : u = t := Option.some.inj heq
    exact (longestMatch_iff.2 rfl).lexeme_of_mem hitem
  | stray => cases heq

theorem toList_joined_cons (t : Token) {ts : List Token} (hts : ts ≠ []) :
    (joined (t :: ts)).toList = t.text.toList ++ ([' '] ++ (joined ts).toList) := by
  unfold joined
  rw [String.toList_intercalate, String.toList_intercalate, List.map_cons, List.map_cons,
    List.intercalate_cons_of_ne_nil (by simpa using hts), List.append_assoc]
  rfl

/-- Joined tokens are `Spaced`, also if a token without text, such as the end token, comes last. -/
theorem spaced_joined (ts ends : List Token) (hends : joined ends = "") :
    Spaced (words ts) (joined (ts ++ ends)).toList := by
  induction ts with
  | nil =>
    rw [List.nil_append, hends]
    exact .nil
  | cons t ts ih =>
    have hspace : ∀ c ∈ [' '], c ∈ blanks := List.forall_mem_singleton.2 (by decide)
    -- there is no space behind the last token
    by_cases hrest : ts ++ ends = []
    · obtain ⟨rfl, rfl⟩ := List.append_eq_nil_iff.1 hrest
      have hone : (joined [t]).toList = t.text.toList ++ ([] ++ []) := by
        rw [List.append_nil, List.append_nil]
        rfl
      rw [List.append_nil, hone]
      exact .cons (by simp) (fun hne => absurd rfl hne) .nil
    · rw [List.cons_append, toList_joined_cons t hrest]
      exact .cons hspace (fun _ => List.cons_ne_nil _ _) ih

/-- The tokens of a text, `joined` with single spaces, are `scanned` to the same words. -/
theorem scan_joined (source : String) (ends : List Token) (hends : joined ends = "") :
    words (scan (joined ((scanned source).filterMap Item.token? ++ ends))).1 =
        words (scan source).1 ∧
      (scan (joined ((scanned source).filterMap Item.token? ++ ends))).2 = [] := by
  have hlexemes : ∀ w ∈ words ((scanned source).filterMap Item.token?), Lexeme w.1 w.2.toList := by
    intro w hw
    obtain ⟨t, ht, rfl⟩ := List.mem_map.1 hw
    exact lexeme_of_mem_scanned ht
  have hscan := (spaced_joined _ _ hends).scan_eq hlexemes (List.forall_mem_nil _)
  rw [List.nil_append, String.ofList_toList] at hscan
  refine ⟨hscan.1.trans ?_, hscan.2⟩
  rw [scan_eq_scanned source, words_append]
  rfl

/-- Words that are a `Lexeme` each with their tags, and that are `Spaced`, so that there are blanks
between them, are found again by a `scan` of their text: these words, the end token and no finding,
whatever the blanks are, and whether or not there are more of them at either end. So the tokens of
any text can be `joined` with single spaces between them, with or without the empty text of the end
token, and scanned again: the words are the same. -/
theorem scan_spaced :
    (∀ (ws : List (Tag × String)) (lead text : List Char), (∀ w ∈ ws, Lexeme w.1 w.2.toList) →
      (∀ c ∈ lead, c ∈ blanks) → Spaced ws text →
        words (scan (String.ofList (lead ++ text))).1 = ws ++ [(.eof, "")] ∧
          (scan (String.ofList (lead ++ text))).2 = []) ∧
    ∀ (source : String), ∀ ts ∈ [(scan source).1, (scan source).1.dropLast],
      words (scan (joined ts)).1 = words (scan source).1 ∧ (scan (joined ts)).2 = [] := by
  constructor
  · intro ws lead text hws hlead h
    exact h.scan_eq hws hlead
  · intro source ts hts
    rw [scan_eq_scanned source, List.dropLast_concat] at hts
    rcases List.mem_cons.1 hts with rfl | hts
    · exact scan_joined source _ rfl
    · obtain rfl := List.mem_singleton.1 hts
      have hscan := scan_joined source [] rfl
      rwa [List.append_nil] at hscan

/-- Words each of which begins another one, or is begun by it. -/
def nestedWords : List (Tag × String) :=
  [(.floatLiteral, "1."), (.intLiteral, "1"), (.keyword, "if"), (.identifier, "iff"),
    (.assign, "="), (.equal, "==")]

/-- Whatever the blanks between the `nestedWords` are, none of the words is lost in the next one. -/
theorem scan_spaced_nestedWords :
    (∀ w ∈ nestedWords, Lexeme w.1 w.2.toList) ∧
      ∃ text : List Char, Spaced nestedWords text ∧
        String.ofList ('\n' :: text) = "\n1. \t1 if\niff =\r\n== " ∧
        words (scan "\n1. \t1 if\niff =\r\n== ").1 = nestedWords ++ [(.eof, "")] ∧
        (scan "\n1. \t1 if\niff =\r\n== ").2 = [] := by
  have hlexemes : ∀ w ∈ nestedWords, Lexeme w.1 w.2.toList := by
    rw [nestedWords, List.forall_mem_cons, List.forall_mem_cons, List.forall_mem_cons,
      List.forall_mem_cons, List.forall_mem_cons, List.forall_mem_singleton]
    refine ⟨?_, ?_, ?_, ?_, ?_, ?_⟩
    · exact .float (d := '1') (by decide) (List.forall_mem_nil _) (List.forall_mem_nil _)
    · exact .int (by decide) (List.forall_mem_nil _)
    · exact .keyword (by decide) (List.forall_mem_singleton.2 (by decide)) (by decide)
    · exact .identifier (by decide) (List.forall_mem_cons.2
        ⟨by decide, List.forall_mem_singleton.2 (by decide)⟩) (by decide)
    · exact .operator (by decide)
    · exact .operator (by decide)
  have hblank : ∀ c ∈ blanks, ∀ d ∈ [c], d ∈ blanks := fun c hc => List.forall_mem_singleton.2 hc
  have hpair : ∀ c ∈ blanks, ∀ d ∈ blanks, ∀ e ∈ [c, d], e ∈ blanks :=
    fun c hc d hd => List.forall_mem_cons.2 ⟨hc, hblank d hd⟩
  have hspaced : ∃ text, Spaced nestedWords text ∧
      String.ofList ('\n' :: text) = "\n1. \t1 if\niff =\r\n== " :=
    ⟨_, .cons (hpair ' ' (by decide) '\t' (by decide)) (by simp) <|
      .cons (hblank ' ' (by decide)) (by simp) <| .cons (hblank '\n' (by decide)) (by simp) <|
      .cons (hblank ' ' (by decide)) (by simp) <|
      .cons (hpair '\r' (by decide) '\n' (by decide)) (by simp) <|
      .cons (hblank ' ' (by decide)) (by simp) .nil, by decide +kernel⟩
  obtain ⟨text, htext, hsource⟩ := hspaced
  have hscan := scan_spaced.1 nestedWords ['\n'] text hlexemes (hblank '\n' (by decide)) htext
  rw [List.singleton_append, hsource] at hscan
  exact ⟨hlexemes, text, htext, hsource, hscan⟩

end Tricode
