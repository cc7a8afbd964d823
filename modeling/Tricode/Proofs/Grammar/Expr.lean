import Tricode.Expr.Parser
import Tricode.Proofs.Grammar.Reading

/-!
# The expression parser reads the grammar's expressions

`sound_expression` and `complete_expression`: with room for `n` nested constructs, the parser for
expressions yields exactly the phrases of the grammar with at most `n` constructs nested in one
another and at most 200 compound expressions on a way down, each with its depth.

The proof is an induction on the room. Inside it the categories follow one another from tight to
loose: what stands by itself, calls, prefix operators, the six levels of binary operators (one
argument for all of them), assignments. Calls and binary operators are loops that extend a phrase to
the right; `Extends` and `Unfolds` are what is to be shown of them.
-/

namespace Tricode

namespace Grammar.Category

/-- The tags of tokens that continue a phrase of a category. -/
def continuing : Category → List Tag
  | assignment =>
    [.assign, .logicalOr, .logicalAnd, .equal, .notEqual, .lessThan, .greaterThan, .lessEqual,
      .greaterEqual, .plus, .minus, .multiply, .divide, .leftParen]
  | logicalOr =>
    [.logicalOr, .logicalAnd, .equal, .notEqual, .lessThan, .greaterThan, .lessEqual,
      .greaterEqual, .plus, .minus, .multiply, .divide, .leftParen]
  | logicalAnd =>
    [.logicalAnd, .equal, .notEqual, .lessThan, .greaterThan, .lessEqual, .greaterEqual, .plus,
      .minus, .multiply, .divide, .leftParen]
  | equality =>
    [.equal, .notEqual, .lessThan, .greaterThan, .lessEqual, .greaterEqual, .plus, .minus,
      .multiply, .divide, .leftParen]
  | relational =>
    [.lessThan, .greaterThan, .lessEqual, .greaterEqual, .plus, .minus, .multiply, .divide,
      .leftParen]
  | additive => [.plus, .minus, .multiply, .divide, .leftParen]
  | multiplicative => [.multiply, .divide, .leftParen]
  | unary => [.leftParen]
  | call => [.leftParen]
  | primary => []

/-- The tokens do not continue a phrase of the category. -/
def Stops (c : Category) (rest : List Token) : Prop :=
  Parser.sees c.continuing rest = false

/-- A phrase of category `c` `Stops` in front of a token whose tag is not `continuing` it. -/
theorem stops_cons_of_not_mem {c : Category} {t : Token} {rest : List Token}
    (h : t.tag ∉ c.continuing) : c.Stops (t :: rest) :=
  Parser.sees_cons_eq_false h

/-- A phrase with binary `operators` `Stops` where its last operand stops and no operator follows.
-/
theorem stops_iff_of_operators {c : Category} (hc : c.operators ≠ []) {rest : List Token} :
    c.Stops rest ↔ c.tighter.Stops rest ∧ Parser.sees c.operators rest = false := by
  have hsplit : c.continuing = c.operators ++ c.tighter.continuing := by
    cases c <;> first | rfl | exact absurd rfl hc
  rw [Stops, Stops, hsplit, Parser.sees_append_eq_false_iff, and_comm]

/-- The tags of tokens that begin a phrase of a category. -/
def starting : Category → List Tag
  | call => [.keyword, .intLiteral, .floatLiteral, .identifier, .leftParen]
  | primary => [.keyword, .intLiteral, .floatLiteral, .identifier, .leftParen]
  | _ => [.keyword, .intLiteral, .floatLiteral, .identifier, .leftParen, .logicalNot, .minus]

/-- What begins a phrase of the `tighter` `Category` begins a phrase of the looser one. -/
theorem starting_tighter_subset (c : Category) : c.tighter.starting ⊆ c.starting := by
  cases c <;> decide

theorem eof_not_mem_operators (c : Category) : .eof ∉ c.operators := by
  cases c <;> decide

/-- An operator of a `Category` does not continue one of its operands. -/
theorem not_mem_continuing_of_mem_operators (c : Category) :
    ∀ tag ∈ c.operators, tag ∉ c.tighter.continuing := by
  cases c <;> decide

end Grammar.Category

/-- A `Phrase` has a first token, and if that is a keyword, it is a literal. -/
theorem Grammar.Phrase.exists_first {n : Nat} {c : Category} {w : List Token} {e : Expr}
    (h : Phrase n c w e) :
    ∃ t v, w = t :: v ∧ t.tag ∈ c.starting ∧ (t.tag = .keyword → t.text ∈ ["true", "false"]) := by
  -- by recursion on the phrase, which begins with its leftmost part
  match h with
  | .truth ht =>
    obtain ⟨htag, htext⟩ := Parser.isKeyword_eq_true_iff.1 ht
    exact ⟨_, [], rfl, by simp [htag, Category.starting], fun _ => htext⟩
  | .int ht => exact ⟨_, [], rfl, by simp [ht, Category.starting], by simp [ht]⟩
  | .float ht => exact ⟨_, [], rfl, by simp [ht, Category.starting], by simp [ht]⟩
  | .name ht => exact ⟨_, [], rfl, by simp [ht, Category.starting], by simp [ht]⟩
  | .paren hl _ _ => exact ⟨_, _, rfl, by simp [hl, Category.starting], by simp [hl]⟩
  | .callNone callee _ _ =>
    obtain ⟨t, v, rfl, ht⟩ := callee.exists_first
    exact ⟨t, _, rfl, ht⟩
  | .call callee _ _ _ =>
    obtain ⟨t, v, rfl, ht⟩ := callee.exists_first
    exact ⟨t, _, rfl, ht⟩
  | .unary hop _ =>
    have hsub : [Tag.logicalNot, .minus] ⊆ Category.unary.starting := by decide
    exact ⟨_, _, rfl, hsub hop, fun hword => absurd hop (by rw [hword]; decide)⟩
  | .binary left _ _ =>
    obtain ⟨t, v, rfl, ht⟩ := left.exists_first
    exact ⟨t, _, rfl, ht⟩
  | .assign target _ _ =>
    obtain ⟨t, v, rfl, ht⟩ := target.exists_first
    exact ⟨t, _, rfl, ht⟩
  | .tighter _ inner =>
    obtain ⟨t, v, rfl, htag, hword⟩ := inner.exists_first
    exact ⟨t, v, rfl, c.starting_tighter_subset htag, hword⟩

/-- `Arguments` have a first token, that of their first expression. -/
theorem Grammar.Arguments.exists_first {n : Nat} {w : List Token} {es : List Expr}
    (h : Arguments n w es) : ∃ t v, w = t :: v ∧ t.tag ∈ Category.assignment.starting := by
  cases h with
  | one last =>
    obtain ⟨t, v, rfl, ht, -⟩ := last.exists_first
    exact ⟨t, v, rfl, ht⟩
  | more first =>
    obtain ⟨t, v, rfl, ht, -⟩ := first.exists_first
    exact ⟨t, _, rfl, ht⟩

namespace Parser

open Grammar

/-! ### Depths -/

/-- The tokens are a phrase, and the depth that was recorded for it is its own and in bounds. -/
def MeasuredPhrase (n : Nat) (c : Category) (w : List Token) (m : Measured) : Prop :=
  Phrase n c w m.expr ∧ m.depth = m.expr.depth ∧ m.expr.depth ≤ maxDepth

/-- An expression with its own depth. -/
def measure (e : Expr) : Measured := ⟨e, e.depth⟩

/-- The depth recorded with a `MeasuredPhrase` is the depth of its expression. -/
theorem MeasuredPhrase.eq_measure {n : Nat} {c : Category} {w : List Token} {m : Measured}
    (h : MeasuredPhrase n c w m) : m = measure m.expr := by
  obtain ⟨-, hdepth, -⟩ := h
  rw [measure, ← hdepth]

theorem MeasuredPhrase.of_tighter {n : Nat} {c : Category} {w : List Token} {m : Measured}
    (hc : c ≠ .primary) (h : MeasuredPhrase n c.tighter w m) : MeasuredPhrase n c w m :=
  ⟨.tighter hc h.1, h.2⟩

/-- `compound` `Yields` the expression, one deeper than its deepest part, if that is not too deep.
-/
theorem compound_yields_iff {e : Expr} {below : Nat} {t : Token} {ts rest : List Token}
    {m : Measured} :
    (compound e below t).Yields ts m rest ↔
      below + 1 ≤ maxDepth ∧ m = ⟨e, below + 1⟩ ∧ rest = ts := by
  unfold compound
  split
  · next h => simp [not_failAt_yields, Nat.not_le.2 h]
  · next h =>
    rw [Pass.yields_pure_iff]
    simp only [Nat.not_lt.1 h, true_and]

/-- The greatest depth of a callee and its arguments. -/
theorem foldl_max_depth (args : List Measured) (hargs : ∀ m ∈ args, m.depth = m.expr.depth)
    (d : Nat) :
    args.foldl (fun d arg => max d arg.depth) d = max d (Expr.depths (args.map Measured.expr)) := by
  induction args generalizing d with
  | nil => simp [Expr.depths]
  | cons m args ih =>
    have hm := hargs m (List.mem_cons_self ..)
    have hrest := ih (fun m' hm' => hargs m' (List.mem_cons_of_mem _ hm')) (max d m.depth)
    rw [List.foldl_cons, hrest, List.map_cons, Expr.depths, hm, Nat.max_assoc]

/-! ### Arguments -/

/-- A `CommaSeparated` row of `MeasuredPhrase`s are `Arguments`, with their depths. -/
theorem arguments_of_commaSeparated {n : Nat} {w : List Token} {ms : List Measured}
    (h : CommaSeparated (MeasuredPhrase n .assignment) w ms) :
    Arguments n w (ms.map Measured.expr) ∧ ∀ m ∈ ms, m.depth = m.expr.depth := by
  induction h with
  | one hlast => exact ⟨.one hlast.1, by simpa using hlast.2.1⟩
  | more hfirst hcomma _ ih =>
    refine ⟨.more hfirst.1 hcomma ih.1, ?_⟩
    simpa using ⟨hfirst.2.1, ih.2⟩

/-- Arguments that are not too deep, with their `depths`. -/
theorem commaSeparated_of_arguments {n : Nat} {w : List Token} {es : List Expr}
    (h : Arguments n w es) (hdepth : Expr.depths es ≤ maxDepth) :
    CommaSeparated (MeasuredPhrase n .assignment) w (es.map measure) := by
  match h with
  | .one hlast =>
    rw [Expr.depths, Expr.depths] at hdepth
    exact .one ⟨hlast, rfl, (Nat.max_le.1 hdepth).1⟩
  | .more hfirst hcomma hrest =>
    rw [Expr.depths] at hdepth
    have hle := Nat.max_le.1 hdepth
    exact .more ⟨hfirst, rfl, hle.1⟩ hcomma (commaSeparated_of_arguments hrest hle.2)

/-! ### What stands by itself -/

/-- There is a parser for what stands `inside` exactly if a level is left. -/
theorem inside_eq_some_iff {n : Nat} {p : Parser Measured} :
    inside n = some p ↔ ∃ k, n = k + 1 ∧ p = expression k := by
  cases n with
  | zero => simp [inside]
  | succ k => simp [inside, eq_comm]

/-- The parser for what stands one level further in yields phrases. -/
def SoundInside (n : Nat) : Prop :=
  ∀ k, n = k + 1 → Sound (expression k) (MeasuredPhrase k .assignment)

/-- The parser for what stands one level further in yields all phrases. -/
def CompleteInside (n : Nat) : Prop :=
  ∀ k, n = k + 1 →
    Complete (expression k) (MeasuredPhrase k .assignment) Category.assignment.Stops

theorem skip_pure_yields_iff {α : Type} {a b : α} {t : Token} {ts rest : List Token} :
    (do skip; pure a : Parser α).Yields (t :: ts) b rest ↔ b = a ∧ rest = ts := by
  constructor
  · intro h
    obtain ⟨_, mid, hskip, hpure⟩ := Pass.yields_bind_iff.1 h
    obtain rfl := skip_yields_iff.1 hskip
    exact Pass.yields_pure_iff.1 hpure
  · rintro ⟨rfl, rfl⟩
    rfl

/-- What `primary` does if the next token is `t`. -/
def primaryOf (inner : Option (Parser Measured)) (t : Token) : Parser Measured :=
  if t.isKeyword truthWords then do
    skip
    pure (leaf (.literal .bool t.text t.pos))
  else match t.tag with
    | .intLiteral => do
      skip
      pure (leaf (.literal .int t.text t.pos))
    | .floatLiteral => do
      skip
      pure (leaf (.literal .float t.text t.pos))
    | .identifier => do
      skip
      pure (leaf (.ident t.text t.pos))
    | .leftParen => do
      skip
      let e ← nested .expression inner t id
      let _ ← expect .rightParen (.expected .closeAfterExpression)
      pure e
    | _ => failAt (.expected .expression) t

/-- What `primary` `Yields` is decided by the first token. -/
theorem primary_yields_iff {inner : Option (Parser Measured)} {t : Token} {ts rest : List Token}
    {m : Measured} :
    (primary inner).Yields (t :: ts) m rest ↔ (primaryOf inner t).Yields (t :: ts) m rest :=
  Iff.rfl

/-- An expression in parentheses, behind the opening parenthesis `t`. -/
theorem parenthesized_yields_iff {n : Nat} {t : Token} {ts rest : List Token} {m : Measured} :
    (do
      skip
      let e ← nested .expression (inside n) t id
      let _ ← expect .rightParen (.expected .closeAfterExpression)
      pure e : Parser Measured).Yields (t :: ts) m rest ↔
      ∃ k r, n = k + 1 ∧ r.tag = .rightParen ∧ (expression k).Yields ts m (r :: rest) := by
  constructor
  · intro h
    obtain ⟨_, mid, hskip, h₁⟩ := Pass.yields_bind_iff.1 h
    obtain rfl := skip_yields_iff.1 hskip
    obtain ⟨e, mid, hnested, h₂⟩ := Pass.yields_bind_iff.1 h₁
    obtain ⟨r, mid', rfl, -, hr, h₃⟩ := expect_bind_yields_iff.1 h₂
    obtain ⟨rfl, rfl⟩ := Pass.yields_pure_iff.1 h₃
    -- the room for the expression inside is one level of the room outside
    obtain ⟨p, hp, he⟩ := nested_yields_iff.1 hnested
    obtain ⟨k, rfl, rfl⟩ := inside_eq_some_iff.1 hp
    exact ⟨k, r, rfl, hr, he⟩
  · rintro ⟨k, r, rfl, hr, he⟩
    refine Pass.yields_bind_iff.2 ⟨(), ts, rfl, ?_⟩
    refine Pass.yields_bind_iff.2 ⟨m, r :: rest, nested_yields_iff.2 ⟨_, rfl, he⟩, ?_⟩
    exact expect_bind_yields hr (by decide) rfl

/-- What `primary` yields is a primary expression. -/
theorem sound_primary {n : Nat} (hinner : SoundInside n) :
    Sound (primary (inside n)) (MeasuredPhrase n .primary) := by
  intro ts m rest h
  cases ts with
  | nil => exact absurd h not_failAt_yields
  | cons t ts =>
    rw [primary_yields_iff, primaryOf] at h
    -- the cases are those of the parser: a keyword, then the tags
    split at h
    · next ht =>
      obtain ⟨rfl, rfl⟩ := skip_pure_yields_iff.1 h
      exact ⟨[t], rfl, .truth ht, rfl, Nat.zero_le _⟩
    · split at h
      · next ht =>
        obtain ⟨rfl, rfl⟩ := skip_pure_yields_iff.1 h
        exact ⟨[t], rfl, .int ht, rfl, Nat.zero_le _⟩
      · next ht =>
        obtain ⟨rfl, rfl⟩ := skip_pure_yields_iff.1 h
        exact ⟨[t], rfl, .float ht, rfl, Nat.zero_le _⟩
      · next ht =>
        obtain ⟨rfl, rfl⟩ := skip_pure_yields_iff.1 h
        exact ⟨[t], rfl, .name ht, rfl, Nat.zero_le _⟩
      · next ht =>
        obtain ⟨k, r, rfl, hr, he⟩ := parenthesized_yields_iff.1 h
        obtain ⟨w, rfl, hphrase, hdepth⟩ := hinner k rfl _ _ _ he
        exact ⟨t :: w ++ [r], by simp, .paren ht hphrase hr, hdepth⟩
      · exact absurd h not_failAt_yields

/-- Any expression `Stops` at a closing parenthesis, a comma and a semicolon. -/
theorem stops_assignment_of_tag {t : Token} {rest : List Token}
    (h : t.tag = .rightParen ∨ t.tag = .comma ∨ t.tag = .semicolon) :
    Category.assignment.Stops (t :: rest) := by
  apply Category.stops_cons_of_not_mem
  rcases h with h | h | h <;> rw [h] <;> decide

/-- An assignment `Stops` where its target would, unless an assignment sign follows. -/
theorem stops_assignment_iff {rest : List Token} :
    Category.assignment.Stops rest ↔
      Category.logicalOr.Stops rest ∧ sees [.assign] rest = false := by
  have hsplit : Category.assignment.continuing = [.assign] ++ Category.logicalOr.continuing := rfl
  rw [Category.Stops, hsplit, sees_append_eq_false_iff, and_comm]
  rfl

/-- Every primary expression is read by `primary`, whatever stands behind it. -/
theorem complete_primary {n : Nat} (hinner : CompleteInside n) :
    Complete (primary (inside n)) (MeasuredPhrase n .primary) fun _ => True := by
  intro w m rest h _
  rw [h.eq_measure]
  obtain ⟨hphrase, -, hdepth⟩ := h
  -- the phrase speaks of the expression only, so the recorded depth is put aside
  generalize m.expr = e at hphrase hdepth
  cases hphrase with
  | @truth _ t ht =>
    have hwords : t.isKeyword truthWords = true := ht
    rw [List.singleton_append, primary_yields_iff, primaryOf, if_pos hwords]
    rfl
  | @int _ t ht =>
    rw [List.singleton_append, primary_yields_iff]
    simp only [primaryOf, Token.isKeyword, ht]
    rfl
  | @float _ t ht =>
    rw [List.singleton_append, primary_yields_iff]
    simp only [primaryOf, Token.isKeyword, ht]
    rfl
  | @name _ t ht =>
    rw [List.singleton_append, primary_yields_iff]
    simp only [primaryOf, Token.isKeyword, ht]
    rfl
  | @paren k l r w e hl inner hr =>
    rw [List.append_assoc, List.cons_append, primary_yields_iff]
    simp only [primaryOf, Token.isKeyword, hl]
    refine parenthesized_yields_iff.2 ⟨k, r, rfl, hr, ?_⟩
    exact hinner k rfl w (measure e) _ ⟨inner, rfl, hdepth⟩ (stops_assignment_of_tag (.inl hr))
  | binary _ hop => simp [Category.operators] at hop
  | tighter hc => exact absurd rfl hc

/-! ### Calls -/

/-- What `arguments` needs: expressions up to a closing parenthesis, none of them too deep. -/
theorem arguments_yields_iff {n : Nat} {callee m : Measured} {paren : Token}
    {ts rest : List Token} :
    (arguments (inside n) callee paren).Yields ts m rest ↔
      ∃ k args r, n = k + 1 ∧ (listed (expression k)).Yields ts args (r :: rest) ∧
        r.tag = .rightParen ∧
        args.foldl (fun d arg => max d arg.depth) callee.depth + 1 ≤ maxDepth ∧
        m = ⟨.call callee.expr (args.map Measured.expr) callee.expr.pos,
          args.foldl (fun d arg => max d arg.depth) callee.depth + 1⟩ := by
  constructor
  · intro h
    obtain ⟨args, mid, hnested, h₁⟩ := Pass.yields_bind_iff.1 h
    obtain ⟨p, hp, hlisted⟩ := nested_yields_iff.1 hnested
    obtain ⟨k, rfl, rfl⟩ := inside_eq_some_iff.1 hp
    obtain ⟨r, mid', rfl, -, hr, h₂⟩ := expect_bind_yields_iff.1 h₁
    obtain ⟨hdepth, rfl, rfl⟩ := compound_yields_iff.1 h₂
    exact ⟨k, args, r, rfl, hlisted, hr, hdepth, rfl⟩
  · rintro ⟨k, args, r, rfl, hlisted, hr, hdepth, rfl⟩
    refine Pass.yields_bind_iff.2 ⟨args, r :: rest, nested_yields_iff.2 ⟨_, rfl, hlisted⟩, ?_⟩
    exact expect_bind_yields hr (by decide) (compound_yields_iff.2 ⟨hdepth, rfl, rfl⟩)

/-- `arguments` in parentheses behind a call make a longer call. -/
theorem extends_arguments {n : Nat} (hinner : SoundInside n) :
    Extends [.leftParen] (arguments (inside n)) (MeasuredPhrase n .call) := by
  intro callee paren ts m rest htag h
  have hparen : paren.tag = .leftParen := by simpa using htag
  obtain ⟨k, args, r, rfl, hlisted, hr, hdepth, rfl⟩ := arguments_yields_iff.1 h
  -- without arguments there is no depth to take the maximum of
  rcases listed_yields_iff.1 hlisted with ⟨-, rfl, rfl⟩ | ⟨-, hcomma⟩
  · refine ⟨[r], rfl, fun w hw => ⟨.callNone hw.1 hparen hr, ?_⟩⟩
    simp only [List.map_nil, List.foldl_nil, Expr.depth, Expr.depths, Nat.max_zero, hw.2.1]
      at hdepth ⊢
    exact ⟨trivial, hdepth⟩
  · obtain ⟨v, rfl, hv⟩ := (hinner k rfl).commaSeparated _ _ _ hcomma
    obtain ⟨hargs, hdepths⟩ := arguments_of_commaSeparated hv
    refine ⟨v ++ [r], by simp, fun w hw => ⟨.call hw.1 hparen hargs hr, ?_⟩⟩
    rw [foldl_max_depth args hdepths, hw.2.1] at hdepth ⊢
    exact ⟨rfl, hdepth⟩

/-- A `call` is a primary expression with arguments behind it as often as they come. -/
theorem call_eq (inner : Option (Parser Measured)) :
    call inner = primary inner >>= loop fun callee =>
      behind [.leftParen] (arguments inner callee) :=
  rfl

/-- What `call` yields is a call. -/
theorem sound_call {n : Nat} (hinner : SoundInside n) :
    Sound (call (inside n)) (MeasuredPhrase n .call) := by
  rw [call_eq]
  refine Sound.bind_loop ?_ (extends_arguments hinner)
  intro ts m rest h
  obtain ⟨w, rfl, hw⟩ := sound_primary hinner _ _ _ h
  exact ⟨w, rfl, .of_tighter (by decide) hw⟩

/-- A call is a primary expression, or a shorter call with arguments behind it. -/
theorem unfolds_arguments {n : Nat} (hsound : SoundInside n) (hinner : CompleteInside n) :
    Unfolds [.leftParen] (arguments (inside n)) (MeasuredPhrase n .primary)
      (MeasuredPhrase n .call) fun _ => True := by
  intro w m h
  rw [h.eq_measure]
  obtain ⟨hphrase, -, hdepth⟩ := h
  generalize m.expr = e at hphrase hdepth
  cases hphrase with
  | tighter _ inner => exact .inl ⟨inner, rfl, hdepth⟩
  | binary _ hop => simp [Category.operators] at hop
  | @callNone k l r w f callee hl hr =>
    refine .inr ⟨w, l, [r], measure f, rfl, ⟨callee, rfl, ?_⟩, by simp [hl], by simp [hl], ?_⟩
    · simp only [Expr.depth] at hdepth
      exact (Nat.max_le.1 (Nat.le_of_succ_le hdepth)).1
    · intro rest _
      refine arguments_yields_iff.2 ⟨k, [], r, rfl, ?_, hr, ?_, ?_⟩
      · exact listed_yields_iff.2 (.inl ⟨sees_cons_eq_true_iff.2 (by simp [hr]), rfl, rfl⟩)
      · simpa [Expr.depth, Expr.depths, measure] using hdepth
      · simp [Expr.depth, Expr.depths, measure]
  | @call k l r w v f args callee hl hargs hr =>
    have hmax := Nat.max_le.1 (Nat.le_of_succ_le hdepth)
    refine .inr ⟨w, l, v ++ [r], measure f, rfl, ⟨callee, rfl, hmax.1⟩, by simp [hl], by simp [hl],
      ?_⟩
    intro rest _
    -- the depth that the parser adds up is the depth of the call
    have hfold := foldl_max_depth (args.map measure) (by simp [measure]) (measure f).depth
    have hexprs : (args.map measure).map Measured.expr = args := by
      simp [Function.comp_def, measure]
    rw [hexprs] at hfold
    have hitems := commaSeparated_of_arguments hargs hmax.2
    -- an argument is read up to a comma or the parenthesis, which continue no expression
    have hcomplete := (hinner k rfl).commaSeparated (hsound k rfl)
      (fun _ _ hcomma => stops_assignment_of_tag (.inr (.inl hcomma))) v (args.map measure)
      (r :: rest) hitems ⟨stops_assignment_of_tag (.inl hr), sees_cons_eq_false (by simp [hr])⟩
    refine arguments_yields_iff.2 ⟨k, args.map measure, r, rfl, ?_, hr, ?_, ?_⟩
    · rw [List.append_assoc]
      refine listed_yields_iff.2 (.inr ⟨?_, hcomplete⟩)
      -- the list is not empty, since no argument begins with the closing parenthesis
      have hdisjoint : ∀ tag ∈ Category.assignment.starting, tag ∉ [Tag.rightParen] := by decide
      obtain ⟨t, v', rfl, ht⟩ := hargs.exists_first
      exact sees_cons_eq_false (hdisjoint _ ht)
    · rw [hfold]
      exact hdepth
    · rw [hexprs, hfold]
      rfl

/-- Every call is read by `call`, if no parenthesis opens behind it. -/
theorem complete_call {n : Nat} (hsound : SoundInside n) (hinner : CompleteInside n) :
    Complete (call (inside n)) (MeasuredPhrase n .call) Category.call.Stops := by
  intro w m rest hw hstops
  rw [call_eq]
  exact (complete_primary hinner).bind_loop (unfolds_arguments hsound hinner)
    (fun _ _ _ => trivial) (extends_arguments hsound).advances w m rest hw ⟨trivial, hstops⟩

/-! ### Prefix operators -/

/-- An expression behind prefix operators, the first of which is applied last. -/
def prefixed (ops : List Token) (e : Expr) : Expr :=
  ops.foldr (fun op e => .unary op.text e op.pos) e

/-- Each operator of `prefixed` adds one to the depth. -/
theorem depth_prefixed (ops : List Token) (e : Expr) :
    (prefixed ops e).depth = e.depth + ops.length := by
  induction ops with
  | nil => rfl
  | cons op ops ih =>
    have hcons : (prefixed (op :: ops) e).depth = (prefixed ops e).depth + 1 := rfl
    rw [hcons, ih, List.length_cons, Nat.add_assoc]

/-- A unary `Phrase` is a call behind prefix operators. -/
theorem exists_prefixed {n : Nat} {w : List Token} {e : Expr} (h : Phrase n .unary w e) :
    ∃ ops w' f, w = ops ++ w' ∧ e = prefixed ops f ∧
      (∀ op ∈ ops, op.tag ∈ [.logicalNot, .minus]) ∧ Phrase n .call w' f := by
  match h with
  | .unary hop operand =>
    obtain ⟨ops, w', f, rfl, rfl, hops, hcall⟩ := exists_prefixed operand
    exact ⟨_ :: ops, w', f, rfl, rfl, List.forall_mem_cons.2 ⟨hop, hops⟩, hcall⟩
  | .binary _ hop _ => simp [Category.operators] at hop
  | .tighter _ inner => exact ⟨[], w, e, rfl, rfl, by simp, inner⟩

/-- Prefix operators in front of a call make a unary `Phrase`. -/
theorem phrase_prefixed {n : Nat} {ops w : List Token} {f : Expr}
    (hops : ∀ op ∈ ops, op.tag ∈ [.logicalNot, .minus]) (h : Phrase n .call w f) :
    Phrase n .unary (ops ++ w) (prefixed ops f) := by
  induction ops with
  | nil => exact .tighter (by decide) h
  | cons op ops ih =>
    have hparts := List.forall_mem_cons.1 hops
    exact .unary hparts.1 (ih hparts.2)

/-- Tokens that `accept` takes one by one are the front of the list, up to any place. -/
theorem items_accept_iff {tags : List Tag} (htags : .eof ∉ tags) {ts ops rest : List Token} :
    Items (accept tags : Parser (Option Token)) ts ops rest ↔
      ts = ops ++ rest ∧ ∀ op ∈ ops, op.tag ∈ tags := by
  constructor
  · intro h
    induction h with
    | nil => simp
    | cons hhead _ ih =>
      obtain ⟨rfl, -, htag⟩ := accept_yields_some_iff.1 hhead
      obtain ⟨rfl, hops⟩ := ih
      exact ⟨rfl, List.forall_mem_cons.2 ⟨htag, hops⟩⟩
  · rintro ⟨rfl, hops⟩
    induction ops with
    | nil => exact .nil
    | cons op ops ih =>
      obtain ⟨htag, hrest⟩ := List.forall_mem_cons.1 hops
      -- the end token has none of the tags, so it is never taken
      have hend : op.tag ≠ .eof := fun heof => htags (heof ▸ htag)
      exact .cons (accept_yields_some_iff.2 ⟨rfl, hend, htag⟩) (ih hrest)

theorem consumes_accept (tags : List Tag) : Consumes (accept tags : Parser (Option Token)) where
  stops := accept_yields_none_iff.2 ⟨rfl, rfl⟩
  reads ts t rest h := by
    obtain ⟨rfl, -⟩ := accept_yields_some_iff.1 h
    exact Nat.lt_succ_self _

/-- Applying prefix operators with `compound`, the last one first, adds their number to the
depth. -/
theorem foldlM_compound_yields_iff {ops ts rest : List Token} {m m' : Measured}
    (hm : m.depth ≤ maxDepth) :
    (ops.reverse.foldlM
      (fun operand op => compound (.unary op.text operand.expr op.pos) operand.depth op) m :
        Parser Measured).Yields ts m' rest ↔
      m.depth + ops.length ≤ maxDepth ∧ m' = ⟨prefixed ops m.expr, m.depth + ops.length⟩ ∧
        rest = ts := by
  induction ops generalizing m' rest with
  | nil => simpa [Pass.yields_pure_iff, prefixed] using fun _ _ => hm
  | cons op ops ih =>
    -- the first operator is applied last, to what the others give
    rw [List.reverse_cons, List.foldlM_append, Pass.yields_bind_iff]
    simp only [List.foldlM_cons, List.foldlM_nil, bind_pure, ih, compound_yields_iff]
    constructor
    · rintro ⟨_, _, ⟨-, rfl, rfl⟩, hdepth, rfl, rfl⟩
      exact ⟨hdepth, rfl, rfl⟩
    · rintro ⟨hdepth, rfl, rfl⟩
      exact ⟨_, _, ⟨Nat.le_of_succ_le hdepth, rfl, rfl⟩, hdepth, rfl, rfl⟩

/-- What `unary` yields is a unary expression. -/
theorem sound_unary {n : Nat} (hinner : SoundInside n) :
    Sound (unary (inside n)) (MeasuredPhrase n .unary) := by
  intro ts m rest h
  obtain ⟨ops, mid, hmany, h₁⟩ := Pass.yields_bind_iff.1 h
  obtain ⟨operand, mid', hcall, hfold⟩ := Pass.yields_bind_iff.1 h₁
  obtain ⟨last, hitems, hend⟩ := (many_yields_iff (consumes_accept _)).1 hmany
  obtain ⟨-, rfl⟩ := accept_yields_none_iff.1 hend
  -- the operators are the tokens in front, the call stands behind them
  obtain ⟨rfl, hops⟩ := (items_accept_iff (by decide)).1 hitems
  obtain ⟨w, rfl, hphrase, hdepth, hle⟩ := sound_call hinner _ _ _ hcall
  obtain ⟨hbound, rfl, rfl⟩ := (foldlM_compound_yields_iff (hdepth ▸ hle)).1 hfold
  refine ⟨ops ++ w, by simp, phrase_prefixed hops hphrase, ?_⟩
  rw [depth_prefixed, ← hdepth]
  exact ⟨rfl, hbound⟩

/-- Every unary expression is read by `unary`, if nothing behind it continues its operand. -/
theorem complete_unary {n : Nat} (hsound : SoundInside n) (hinner : CompleteInside n) :
    Complete (unary (inside n)) (MeasuredPhrase n .unary) Category.unary.Stops := by
  intro w m rest h hstops
  rw [h.eq_measure]
  obtain ⟨hphrase, -, hdepth⟩ := h
  obtain ⟨ops, w', f, rfl, heq, hops, hcall⟩ := exists_prefixed hphrase
  rw [heq, depth_prefixed] at hdepth
  have hf : f.depth ≤ maxDepth := Nat.le_of_add_right_le hdepth
  -- the first token of the call is no prefix operator, so that the operators end there
  have hfirst : sees [.logicalNot, .minus] (w' ++ rest) = false := by
    have hdisjoint : ∀ tag ∈ Category.call.starting, tag ∉ [Tag.logicalNot, .minus] := by decide
    obtain ⟨t, v, rfl, ht, -⟩ := hcall.exists_first
    exact sees_cons_eq_false (hdisjoint _ ht)
  refine Pass.yields_bind_iff.2 ⟨ops, w' ++ rest, ?_, ?_⟩
  · rw [List.append_assoc]
    refine (many_yields_iff (consumes_accept _)).2 ⟨w' ++ rest, ?_, ?_⟩
    · exact (items_accept_iff (by decide)).2 ⟨rfl, hops⟩
    · exact accept_yields_none_iff.2 ⟨hfirst, rfl⟩
  · have hyields := complete_call hsound hinner w' (measure f) rest ⟨hcall, rfl, hf⟩ hstops
    refine Pass.yields_bind_iff.2 ⟨measure f, rest, hyields, ?_⟩
    refine (foldlM_compound_yields_iff (m := measure f) hf).2 ⟨hdepth, ?_, rfl⟩
    rw [heq, measure, depth_prefixed]
    rfl

/-! ### Binary operators -/

/-- The operation behind its left operand and its operator. -/
def operation (operand : Parser Measured) (left : Measured) (op : Token) : Parser Measured := do
  let right ← operand
  compound (.binary op.text left.expr right.expr op.pos) (max left.depth right.depth) op

/-- A `chain` is an operand with operations behind it as often as they come. -/
theorem chain_eq (ops : List Tag) (operand : Parser Measured) :
    chain ops operand = operand >>= loop fun left => behind ops (operation operand left) := by
  refine congrArg (fun step => operand >>= loop step) (funext fun left => ?_)
  refine congrArg (fun further => accept ops >>= further) (funext fun op? => ?_)
  cases op? with
  | none => rfl
  | some op => exact (map_bind ..).symm

/-- What an `operation` needs: a right operand, and room for a deeper tree. -/
theorem operation_yields_iff {operand : Parser Measured} {left m : Measured} {op : Token}
    {ts rest : List Token} :
    (operation operand left op).Yields ts m rest ↔
      ∃ right, operand.Yields ts right rest ∧ max left.depth right.depth + 1 ≤ maxDepth ∧
        m = ⟨.binary op.text left.expr right.expr op.pos, max left.depth right.depth + 1⟩ := by
  constructor
  · intro h
    obtain ⟨right, mid, hright, hcompound⟩ := Pass.yields_bind_iff.1 h
    obtain ⟨hdepth, rfl, rfl⟩ := compound_yields_iff.1 hcompound
    exact ⟨right, hright, hdepth, rfl⟩
  · rintro ⟨right, hright, hdepth, rfl⟩
    exact Pass.yields_bind_iff.2 ⟨right, rest, hright, compound_yields_iff.2 ⟨hdepth, rfl, rfl⟩⟩

/-- An `operation` behind a phrase makes a longer phrase, which is left associative. -/
theorem extends_operation {n : Nat} {c : Category} {operand : Parser Measured}
    (hoperand : Sound operand (MeasuredPhrase n c.tighter)) :
    Extends c.operators (operation operand) (MeasuredPhrase n c) := by
  intro left op ts m rest hop h
  obtain ⟨right, hright, hdepth, rfl⟩ := operation_yields_iff.1 h
  obtain ⟨v, rfl, hv⟩ := hoperand _ _ _ hright
  refine ⟨v, rfl, fun w hw => ⟨.binary hw.1 hop hv.1, ?_⟩⟩
  rw [hw.2.1, hv.2.1] at hdepth ⊢
  exact ⟨rfl, hdepth⟩

/-- A phrase of category `c` is an operand, or a shorter phrase with an operation behind it. -/
theorem unfolds_operation {n : Nat} {c : Category} (hc : c.operators ≠ [])
    {operand : Parser Measured}
    (hoperand : Complete operand (MeasuredPhrase n c.tighter) c.tighter.Stops) :
    Unfolds c.operators (operation operand) (MeasuredPhrase n c.tighter) (MeasuredPhrase n c)
      c.tighter.Stops := by
  intro w m h
  rw [h.eq_measure]
  obtain ⟨hphrase, -, hdepth⟩ := h
  generalize m.expr = e at hphrase hdepth
  cases hphrase with
  | tighter _ inner => exact .inl ⟨inner, rfl, hdepth⟩
  | @binary _ _ op w v l r left hop right =>
    -- both operands are within the bound, since the whole is one deeper
    have hmax := Nat.max_le.1 (Nat.le_of_succ_le hdepth)
    have hend : op.tag ≠ .eof := fun heof => c.eof_not_mem_operators (heof ▸ hop)
    refine .inr ⟨w, op, v, measure l, rfl, ⟨left, rfl, hmax.1⟩, hend, hop, ?_⟩
    intro rest hstops
    have hright := hoperand v (measure r) rest ⟨right, rfl, hmax.2⟩ hstops
    exact operation_yields_iff.2 ⟨measure r, hright, hdepth, rfl⟩
  | _ => exact absurd rfl hc

/-- A `chain` over a `Sound` operand yields phrases of the looser `Category`. -/
theorem sound_chain {n : Nat} {c : Category} (hc : c ≠ .primary) {operand : Parser Measured}
    (hoperand : Sound operand (MeasuredPhrase n c.tighter)) :
    Sound (chain c.operators operand) (MeasuredPhrase n c) := by
  rw [chain_eq]
  refine Sound.bind_loop ?_ (extends_operation hoperand)
  intro ts m rest h
  obtain ⟨w, rfl, hw⟩ := hoperand _ _ _ h
  exact ⟨w, rfl, .of_tighter hc hw⟩

/-- A `chain` over a `Complete` operand reads every phrase of the looser `Category`. -/
theorem complete_chain {n : Nat} {c : Category} (hc : c.operators ≠ [])
    {operand : Parser Measured} (hsound : Sound operand (MeasuredPhrase n c.tighter))
    (hoperand : Complete operand (MeasuredPhrase n c.tighter) c.tighter.Stops) :
    Complete (chain c.operators operand) (MeasuredPhrase n c) c.Stops := by
  intro w m rest hw hstops
  -- an operator of the level ends the operand in front of it
  have htags : ∀ t rest, t.tag ∈ c.operators → c.tighter.Stops (t :: rest) := fun _ _ htag =>
    Category.stops_cons_of_not_mem (c.not_mem_continuing_of_mem_operators _ htag)
  rw [chain_eq]
  exact hoperand.bind_loop (unfolds_operation hc hoperand) htags
    (extends_operation hsound).advances w m rest hw ((Category.stops_iff_of_operators hc).1 hstops)

/-- What `binary` yields with all `levels` is a phrase of the loosest one. -/
theorem sound_binary {n : Nat} (hinner : SoundInside n) :
    Sound (binary (inside n) levels) (MeasuredPhrase n .logicalOr) := by
  have hmultiplicative := sound_chain (c := .multiplicative) (by decide) (sound_unary hinner)
  have hadditive := sound_chain (c := .additive) (by decide) hmultiplicative
  have hrelational := sound_chain (c := .relational) (by decide) hadditive
  have hequality := sound_chain (c := .equality) (by decide) hrelational
  have hand := sound_chain (c := .logicalAnd) (by decide) hequality
  exact sound_chain (c := .logicalOr) (by decide) hand

/-- Every phrase with binary operators is read by `binary`, if nothing behind it continues it. -/
theorem complete_binary {n : Nat} (hsound : SoundInside n) (hinner : CompleteInside n) :
    Complete (binary (inside n) levels) (MeasuredPhrase n .logicalOr) Category.logicalOr.Stops := by
  -- each level needs both of the next tighter one: that it is sound for its own loop to end
  have hs₀ := sound_unary hsound
  have hs₁ := sound_chain (c := .multiplicative) (by decide) hs₀
  have hs₂ := sound_chain (c := .additive) (by decide) hs₁
  have hs₃ := sound_chain (c := .relational) (by decide) hs₂
  have hs₄ := sound_chain (c := .equality) (by decide) hs₃
  have hs₅ := sound_chain (c := .logicalAnd) (by decide) hs₄
  have h₁ := complete_chain (c := .multiplicative) (by decide) hs₀ (complete_unary hsound hinner)
  have h₂ := complete_chain (c := .additive) (by decide) hs₁ h₁
  have h₃ := complete_chain (c := .relational) (by decide) hs₂ h₂
  have h₄ := complete_chain (c := .equality) (by decide) hs₃ h₃
  have h₅ := complete_chain (c := .logicalAnd) (by decide) hs₄ h₄
  exact complete_chain (c := .logicalOr) (by decide) hs₅ h₅

/-! ### Assignments and expressions -/

/-- What `assignment` needs behind its target. -/
theorem assignment_yields_iff {n : Nat} {ts rest : List Token} {m : Measured} :
    (assignment (inside n)).Yields ts m rest ↔
      ∃ target mid, (binary (inside n) levels).Yields ts target mid ∧
        (sees [.assign] mid = false ∧ m = target ∧ rest = mid ∨
          ∃ k sign mid' value x p, n = k + 1 ∧ mid = sign :: mid' ∧ sign.tag = .assign ∧
            (expression k).Yields mid' value rest ∧ target.expr = .ident x p ∧
            value.depth + 1 ≤ maxDepth ∧ m = ⟨.assign x value.expr p, value.depth + 1⟩) := by
  constructor
  · intro h
    obtain ⟨target, mid, htarget, h₁⟩ := Pass.yields_bind_iff.1 h
    obtain ⟨sign?, mid', haccept, h₂⟩ := Pass.yields_bind_iff.1 h₁
    refine ⟨target, mid, htarget, ?_⟩
    cases sign? with
    | none =>
      obtain ⟨hsees, rfl⟩ := accept_yields_none_iff.1 haccept
      obtain ⟨rfl, rfl⟩ := Pass.yields_pure_iff.1 h₂
      exact .inl ⟨hsees, rfl, rfl⟩
    | some sign =>
      obtain ⟨rfl, -, hsign⟩ := accept_yields_some_iff.1 haccept
      obtain ⟨value, last, hnested, h₃⟩ := Pass.yields_bind_iff.1 h₂
      obtain ⟨p, hp, hvalue⟩ := nested_yields_iff.1 hnested
      obtain ⟨k, rfl, rfl⟩ := inside_eq_some_iff.1 hp
      -- only a name can be assigned to; anything else in front of the sign fails
      split at h₃
      · next x p hx =>
        obtain ⟨hdepth, rfl, rfl⟩ := compound_yields_iff.1 h₃
        exact .inr ⟨k, sign, mid', value, x, p, rfl, rfl, by simpa using hsign, hvalue, hx, hdepth,
          rfl⟩
      · exact absurd h₃ not_failAt_yields
  · rintro ⟨target, mid, htarget, h⟩
    refine Pass.yields_bind_iff.2 ⟨target, mid, htarget, ?_⟩
    rcases h with ⟨hsees, rfl, rfl⟩ |
      ⟨k, sign, mid', value, x, p, rfl, rfl, hsign, hvalue, hx, hd, rfl⟩
    · exact Pass.yields_bind_iff.2 ⟨none, rest, accept_yields_none_iff.2 ⟨hsees, rfl⟩, rfl⟩
    · refine Pass.yields_bind_iff.2 ⟨some sign, mid', accept_yields_some_iff.2 ?_, ?_⟩
      · exact ⟨rfl, by simp [hsign], by simp [hsign]⟩
      · refine Pass.yields_bind_iff.2 ⟨value, rest, nested_yields_iff.2 ⟨_, rfl, hvalue⟩, ?_⟩
        rw [hx]
        exact compound_yields_iff.2 ⟨hd, rfl, rfl⟩

/-- What `assignment` yields is an assignment. -/
theorem sound_assignment {n : Nat} (hinner : SoundInside n) :
    Sound (assignment (inside n)) (MeasuredPhrase n .assignment) := by
  intro ts m rest h
  obtain ⟨target, mid, htarget, hrest⟩ := assignment_yields_iff.1 h
  obtain ⟨w, rfl, hw⟩ := sound_binary hinner _ _ _ htarget
  rcases hrest with ⟨-, rfl, rfl⟩ | ⟨k, sign, mid', value, x, p, rfl, rfl, hsign, hvalue, hx, hd,
    rfl⟩
  · exact ⟨w, rfl, .of_tighter (by decide) hw⟩
  · obtain ⟨v, rfl, hphrase, hdepth, -⟩ := hinner k rfl _ _ _ hvalue
    refine ⟨w ++ sign :: v, by simp, .assign (hx ▸ hw.1) hsign hphrase, ?_⟩
    rw [hdepth] at hd ⊢
    exact ⟨rfl, hd⟩

/-- Every assignment is read by `assignment`, if nothing behind it continues it. -/
theorem complete_assignment {n : Nat} (hsound : SoundInside n) (hinner : CompleteInside n) :
    Complete (assignment (inside n)) (MeasuredPhrase n .assignment) Category.assignment.Stops := by
  intro w m rest h hstops
  rw [h.eq_measure]
  obtain ⟨hphrase, -, hdepth⟩ := h
  generalize m.expr = e at hphrase hdepth
  have hbinary := complete_binary hsound hinner
  cases hphrase with
  | tighter _ inner =>
    obtain ⟨hor, hassign⟩ := stops_assignment_iff.1 hstops
    have htarget := hbinary w (measure e) rest ⟨inner, rfl, hdepth⟩ hor
    exact assignment_yields_iff.2 ⟨measure e, rest, htarget, .inl ⟨hassign, rfl, rfl⟩⟩
  | binary _ hop => simp [Category.operators] at hop
  | @assign k sign w v x p e target hsign value =>
    have hvalue := hinner k rfl v (measure e) rest ⟨value, rfl, Nat.le_of_succ_le hdepth⟩ hstops
    -- the sign continues no operation, so that the target is read up to it
    have htarget := hbinary w (measure (.ident x p)) (sign :: (v ++ rest))
      ⟨target, rfl, Nat.zero_le _⟩ (Category.stops_cons_of_not_mem (by rw [hsign]; decide))
    rw [List.append_assoc]
    exact assignment_yields_iff.2 ⟨_, _, htarget, .inr ⟨k, sign, v ++ rest, measure e, x, p, rfl,
      rfl, hsign, hvalue, rfl, hdepth, rfl⟩⟩

/-- What the `expression` parser yields is an expression of the grammar, with its depth. -/
theorem sound_expression (n : Nat) : Sound (expression n) (MeasuredPhrase n .assignment) := by
  induction n with
  | zero => exact sound_assignment (n := 0) (by simp [SoundInside])
  | succ n ih =>
    refine sound_assignment (n := n + 1) fun k hk => ?_
    obtain rfl := Nat.succ.inj hk
    exact ih

/-- The `expression` parser yields every expression of the grammar that is not too deep, with its
depth, if the tokens behind it do not continue it. -/
theorem complete_expression (n : Nat) :
    Complete (expression n) (MeasuredPhrase n .assignment) Category.assignment.Stops := by
  induction n with
  | zero => exact complete_assignment (n := 0) (by simp [SoundInside]) (by simp [CompleteInside])
  | succ n ih =>
    refine complete_assignment (n := n + 1) (fun k _ => sound_expression k) fun k hk => ?_
    obtain rfl := Nat.succ.inj hk
    exact ih

end Parser

end Tricode
