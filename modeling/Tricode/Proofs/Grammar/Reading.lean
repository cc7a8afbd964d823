import Tricode.Proofs.Grammar
import Tricode.Proofs.Parser

/-!
# Parsers for languages

A language is a relation between lists of tokens and what they denote. `Parser.Sound p L` says that
whatever `p` yields is denoted by the tokens it has read. `Parser.Complete p L stops` says that `p`
yields what a word of `L` denotes, wherever the tokens behind the word satisfy `stops`: a parser
that reads as far as it can needs to know that the word is not continued.

The lists of the grammar, items one behind the other and items with commas between them, are read by
`many` and by `commaSeparated`.
-/

namespace Tricode

namespace Parser

open Grammar

variable {α ε : Type}

/-- What the parser yields is denoted by the tokens it has read. -/
def Sound (p : Reader ε α) (L : List Token → α → Prop) : Prop :=
  ∀ ts a rest, p.Yields ts a rest → ∃ w, ts = w ++ rest ∧ L w a

/-- The parser yields what a word denotes, if the tokens behind the word do not continue it. -/
def Complete (p : Reader ε α) (L : List Token → α → Prop) (stops : List Token → Prop) : Prop :=
  ∀ w a rest, L w a → stops rest → p.Yields (w ++ rest) a rest

/-! ### What stands behind a token -/

/-- What `further` gives behind a token with one of these tags; nothing where there is no such
token. -/
def behind (tags : List Tag) (further : Token → Parser α) : Parser (Option α) := do
  match ← accept tags with
  | some t => some <$> further t
  | none => pure none

/-- `behind` reads on behind a token with one of the tags. -/
theorem behind_yields_some_iff {tags : List Tag} {further : Token → Parser α} {a : α}
    {ts rest : List Token} :
    (behind tags further).Yields ts (some a) rest ↔
      ∃ t mid, ts = t :: mid ∧ t.tag ≠ .eof ∧ t.tag ∈ tags ∧ (further t).Yields mid a rest := by
  constructor
  · intro h
    obtain ⟨t?, mid, haccept, hrest⟩ := Pass.yields_bind_iff.1 h
    cases t? with
    | none => simp [Pass.yields_pure_iff] at hrest
    | some t =>
      obtain ⟨rfl, hend, htag⟩ := accept_yields_some_iff.1 haccept
      obtain ⟨a', hfurther, heq⟩ := Pass.yields_map_iff.1 hrest
      obtain rfl := Option.some.inj heq
      exact ⟨t, mid, rfl, hend, htag, hfurther⟩
  · rintro ⟨t, mid, rfl, hend, htag, hfurther⟩
    exact Pass.yields_bind_iff.2 ⟨some t, mid, accept_yields_some_iff.2 ⟨rfl, hend, htag⟩,
      Pass.yields_map_iff.2 ⟨a, hfurther, rfl⟩⟩

/-- `behind` gives up where no token with one of the tags is next, and takes nothing. -/
theorem behind_yields_none_iff {tags : List Tag} {further : Token → Parser α}
    {ts rest : List Token} :
    (behind tags further).Yields ts none rest ↔ sees tags ts = false ∧ rest = ts := by
  constructor
  · intro h
    obtain ⟨t?, mid, haccept, hrest⟩ := Pass.yields_bind_iff.1 h
    cases t? with
    | none =>
      obtain ⟨-, rfl⟩ := Pass.yields_pure_iff.1 hrest
      exact accept_yields_none_iff.1 haccept
    | some t => simp [Pass.yields_map_iff] at hrest
  · intro h
    exact Pass.yields_bind_iff.2 ⟨none, rest, accept_yields_none_iff.2 h, rfl⟩

/-! ### Items with commas between them -/

/-- An item behind a comma. -/
def furtherItem (item : Parser α) : Parser (Option α) :=
  behind [.comma] fun _ => item

/-- What `commaSeparated` yields is a first item and further ones. -/
theorem commaSeparated_yields_iff {item : Parser α} {ts rest : List Token} {as : List α} :
    (commaSeparated item).Yields ts as rest ↔
      ∃ a as' mid, as = a :: as' ∧ item.Yields ts a mid ∧
        (many (furtherItem item)).Yields mid as' rest := by
  constructor
  · intro h
    obtain ⟨a, mid, hfirst, h⟩ := Pass.yields_bind_iff.1 h
    obtain ⟨as', last, hmany, h⟩ := Pass.yields_bind_iff.1 h
    obtain ⟨rfl, rfl⟩ := Pass.yields_pure_iff.1 h
    exact ⟨a, as', mid, rfl, hfirst, hmany⟩
  · rintro ⟨a, as', mid, rfl, hfirst, hmany⟩
    exact Pass.yields_bind_iff.2 ⟨a, mid, hfirst, Pass.yields_bind_iff.2 ⟨as', rest, hmany, rfl⟩⟩

/-- `furtherItem` reads an item behind a comma. -/
theorem furtherItem_yields_some_iff {item : Parser α} {ts rest : List Token} {a : α} :
    (furtherItem item).Yields ts (some a) rest ↔
      ∃ comma mid, ts = comma :: mid ∧ comma.tag = .comma ∧ item.Yields mid a rest := by
  rw [furtherItem, behind_yields_some_iff]
  constructor
  · rintro ⟨t, mid, rfl, -, htag, hitem⟩
    exact ⟨t, mid, rfl, by simpa using htag, hitem⟩
  · rintro ⟨t, mid, rfl, htag, hitem⟩
    exact ⟨t, mid, rfl, by simp [htag], by simp [htag], hitem⟩

theorem Sound.consumes_furtherItem {item : Parser α} {L : List Token → α → Prop}
    (hitem : Sound item L) : Consumes (furtherItem item) where
  stops := behind_yields_none_iff.2 ⟨rfl, rfl⟩
  reads ts a rest h := by
    obtain ⟨comma, mid, rfl, -, h⟩ := furtherItem_yields_some_iff.1 h
    obtain ⟨w, rfl, -⟩ := hitem mid a rest h
    simp only [List.length_cons, List.length_append]
    omega

theorem Sound.exists_of_items {item : Parser α} {L : List Token → α → Prop} (hitem : Sound item L)
    {ts rest : List Token} {as : List α} (h : Items (furtherItem item) ts as rest) {w : List Token}
    {a : α} (hfirst : L w a) : ∃ v, ts = v ++ rest ∧ CommaSeparated L (w ++ v) (a :: as) := by
  induction h generalizing w a with
  | nil => exact ⟨[], rfl, by simpa using .one hfirst⟩
  | cons hhead _ ih =>
    obtain ⟨comma, mid, rfl, hcomma, hhead⟩ := furtherItem_yields_some_iff.1 hhead
    obtain ⟨u, rfl, hu⟩ := hitem _ _ _ hhead
    obtain ⟨v, rfl, hv⟩ := ih hu
    exact ⟨comma :: (u ++ v), by simp, .more hfirst hcomma hv⟩

/-- If the items are `Sound`, so are items with commas between them. -/
theorem Sound.commaSeparated {item : Parser α} {L : List Token → α → Prop} (hitem : Sound item L) :
    Sound (commaSeparated item) (CommaSeparated L) := by
  intro ts as rest h
  obtain ⟨a, as', mid, rfl, hfirst, hmany⟩ := commaSeparated_yields_iff.1 h
  obtain ⟨last, hitems, hend⟩ := (many_yields_iff hitem.consumes_furtherItem).1 hmany
  obtain ⟨-, rfl⟩ := behind_yields_none_iff.1 hend
  obtain ⟨w, rfl, hw⟩ := hitem _ _ _ hfirst
  obtain ⟨v, rfl, hv⟩ := hitem.exists_of_items hitems hw
  exact ⟨w ++ v, by simp, hv⟩

/-- Items with commas between them are read one by one, if what ends the row ends an item and so
does a comma. -/
theorem Complete.items_of_commaSeparated {item : Parser α} {L : List Token → α → Prop}
    {stops : List Token → Prop} (hitem : Complete item L stops)
    (hcomma : ∀ comma rest, comma.tag = .comma → stops (comma :: rest)) {w : List Token}
    {as : List α} (h : CommaSeparated L w as) {rest : List Token} (hrest : stops rest) :
    ∃ a as' mid, as = a :: as' ∧ item.Yields (w ++ rest) a mid ∧
      Items (furtherItem item) mid as' rest := by
  induction h with
  | one hlast => exact ⟨_, [], rest, rfl, hitem _ _ _ hlast hrest, .nil⟩
  | @more comma w v a as hfirst htag _ ih =>
    obtain ⟨a', as', mid, rfl, hnext, hitems⟩ := ih
    refine ⟨a, a' :: as', comma :: (v ++ rest), rfl, ?_, .cons ?_ hitems⟩
    · rw [List.append_assoc]
      exact hitem _ _ _ hfirst (hcomma comma _ htag)
    · exact furtherItem_yields_some_iff.2 ⟨comma, v ++ rest, rfl, htag, hnext⟩

/-- If the items are `Complete`, so are items with commas between them, up to where no comma
follows. -/
theorem Complete.commaSeparated {item : Parser α} {L : List Token → α → Prop}
    {stops : List Token → Prop} (hitem : Complete item L stops) (hsound : Sound item L)
    (hcomma : ∀ comma rest, comma.tag = .comma → stops (comma :: rest)) :
    Complete (commaSeparated item) (CommaSeparated L)
      fun rest => stops rest ∧ sees [.comma] rest = false := by
  rintro w as rest h ⟨hstops, hsees⟩
  obtain ⟨a, as', mid, rfl, hfirst, hitems⟩ := hitem.items_of_commaSeparated hcomma h hstops
  refine commaSeparated_yields_iff.2 ⟨a, as', mid, rfl, hfirst, ?_⟩
  refine (many_yields_iff hsound.consumes_furtherItem).2 ⟨rest, hitems, ?_⟩
  exact behind_yields_none_iff.2 ⟨hsees, rfl⟩

/-! ### Phrases that grow to the right -/

/-- Behind a word of `L` that denotes `a` and a token with one of these tags, `further` reads what
makes it a longer word of `L`. -/
def Extends (tags : List Tag) (further : α → Token → Parser α) (L : List Token → α → Prop) : Prop :=
  ∀ a t ts b rest, t.tag ∈ tags → (further a t).Yields ts b rest →
    ∃ v, ts = v ++ rest ∧ ∀ w, L w a → L (w ++ t :: v) b

theorem Extends.advances {tags : List Tag} {further : α → Token → Parser α}
    {L : List Token → α → Prop} (h : Extends tags further L) :
    Advances fun a => behind tags (further a) where
  stops a := behind_yields_none_iff.2 ⟨rfl, rfl⟩
  reads a ts b rest hstep := by
    obtain ⟨t, mid, rfl, -, htag, hfurther⟩ := behind_yields_some_iff.1 hstep
    obtain ⟨v, rfl, -⟩ := h _ _ _ _ _ htag hfurther
    simp only [List.length_cons, List.length_append]
    omega

/-- Steps behind a phrase that each `Extends` it take the tokens by which it grows. -/
theorem Extends.exists_of_steps {tags : List Tag} {further : α → Token → Parser α}
    {L : List Token → α → Prop} (h : Extends tags further L) {p q : α × List Token}
    (hsteps : Relation.ReflTransGen (Steps fun a => behind tags (further a)) p q) {w : List Token}
    (hw : L w p.1) : ∃ v, p.2 = v ++ q.2 ∧ L (w ++ v) q.1 := by
  -- by induction on the steps, the last of which extends what the others have built
  induction hsteps with
  | refl => exact ⟨[], rfl, by simpa using hw⟩
  | tail _ hstep ih =>
    obtain ⟨v, hv, hL⟩ := ih
    obtain ⟨t, mid, heq, -, htag, hfurther⟩ := behind_yields_some_iff.1 hstep
    obtain ⟨u, hu, hext⟩ := h _ _ _ _ _ htag hfurther
    refine ⟨v ++ t :: u, by rw [hv, heq, hu]; simp, ?_⟩
    rw [← List.append_assoc]
    exact hext _ hL

/-- A loop that `Extends` phrases yields phrases. -/
theorem Sound.bind_loop {tags : List Tag} {further : α → Token → Parser α} {p : Parser α}
    {L : List Token → α → Prop} (hp : Sound p L) (hext : Extends tags further L) :
    Sound (p >>= loop fun a => behind tags (further a)) L := by
  intro ts b rest h
  obtain ⟨a, mid, hfirst, hloop⟩ := Pass.yields_bind_iff.1 h
  obtain ⟨last, hsteps, hend⟩ := (loop_yields_iff hext.advances).1 hloop
  obtain ⟨-, rfl⟩ := behind_yields_none_iff.1 hend
  obtain ⟨w, rfl, hw⟩ := hp _ _ _ hfirst
  obtain ⟨v, hv, hL⟩ := hext.exists_of_steps hsteps hw
  exact ⟨w ++ v, by rw [List.append_assoc, ← hv], hL⟩

/-- How a word of `L` comes about: it is a word of `L₀`, or a shorter word of `L`, a token with one
of these tags, and tokens from which `further` yields what the whole denotes. -/
def Unfolds (tags : List Tag) (further : α → Token → Parser α) (L₀ L : List Token → α → Prop)
    (stops : List Token → Prop) : Prop :=
  ∀ w b, L w b → L₀ w b ∨ ∃ w' t v a, w = w' ++ t :: v ∧ L w' a ∧ t.tag ≠ .eof ∧ t.tag ∈ tags ∧
    ∀ rest, stops rest → (further a t).Yields (v ++ rest) b rest

/-- A phrase that `Unfolds` is reached from its beginning in steps. -/
theorem Unfolds.steps {tags : List Tag} {further : α → Token → Parser α} {p : Parser α}
    {L₀ L : List Token → α → Prop} {stops : List Token → Prop}
    (h : Unfolds tags further L₀ L stops) (hp : Complete p L₀ stops)
    (htags : ∀ t rest, t.tag ∈ tags → stops (t :: rest)) (w : List Token) (b : α)
    (rest : List Token) (hw : L w b) (hstops : stops rest) :
    ∃ a mid, p.Yields (w ++ rest) a mid ∧
      Relation.ReflTransGen (Steps fun a => behind tags (further a)) (a, mid) (b, rest) := by
  -- the phrase is unfolded from its end, so the induction is on the number of its tokens
  induction hn : w.length using Nat.strongRecOn generalizing w b rest with
  | ind n ih =>
  rcases h w b hw with hw | ⟨w', t, v, a, rfl, hw', hend, htag, hfurther⟩
  · exact ⟨b, rest, hp _ _ _ hw hstops, .refl⟩
  · have hlt : w'.length < n := by
      rw [← hn, List.length_append, List.length_cons]
      omega
    obtain ⟨a₀, mid, hfirst, hsteps⟩ := ih _ hlt w' a (t :: (v ++ rest)) hw' (htags t _ htag) rfl
    refine ⟨a₀, mid, by simpa using hfirst, hsteps.tail ?_⟩
    exact behind_yields_some_iff.2 ⟨t, v ++ rest, rfl, hend, htag, hfurther rest hstops⟩

/-- A loop over phrases that `Unfolds` them reads every one. -/
theorem Complete.bind_loop {tags : List Tag} {further : α → Token → Parser α} {p : Parser α}
    {L₀ L : List Token → α → Prop} {stops : List Token → Prop} (hp : Complete p L₀ stops)
    (hunfolds : Unfolds tags further L₀ L stops)
    (htags : ∀ t rest, t.tag ∈ tags → stops (t :: rest))
    (hadv : Advances fun a => behind tags (further a)) :
    Complete (p >>= loop fun a => behind tags (further a)) L
      fun rest => stops rest ∧ sees tags rest = false := by
  rintro w b rest hw ⟨hstops, hsees⟩
  obtain ⟨a, mid, hfirst, hsteps⟩ := hunfolds.steps hp htags w b rest hw hstops
  refine Pass.yields_bind_iff.2 ⟨a, mid, hfirst, (loop_yields_iff hadv).2 ⟨rest, hsteps, ?_⟩⟩
  exact behind_yields_none_iff.2 ⟨hsees, rfl⟩

end Parser

end Tricode
