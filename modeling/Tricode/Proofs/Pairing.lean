import Mathlib.Data.List.Forall2
import Tricode.Proofs.Pass

/-!
# Two runs side by side

A pairing says how the states of two runs compare, and how the entries of their logs do.
`Pairing.Relates pre m m' post` follows `m` and `m'` from states with `pre`: their logs compare
entry by entry, and either both fail with the same failure, or both succeed, and then `post` holds
of their values and of the states they end in. `Pairing.Agrees m m' V` is the case in which nothing
is asked of the states but that they compare, before and after.

Two runs of one pass from one state are such a pair, too. With a property of states in place of a
comparison, `Agrees` says what the pass keeps.
-/

namespace Tricode

namespace Pass

variable {σ ω ε α β : Type}

/-- How the states and the entries of two runs compare. -/
structure Pairing (σ ω : Type) where
  states : σ → σ → Prop
  entries : ω → ω → Prop

namespace Pairing

variable {K : Pairing σ ω}

/-- Two runs end alike: both succeed, with values and states that have `post`, or both fail in the
same way. -/
inductive Ends (K : Pairing σ ω) (post : α → α → σ → σ → Prop) :
    Outcome σ ω ε α → Outcome σ ω ε α → Prop where
  | ok {a b : α} {log log' : List ω} {s s' : σ} (logs : List.Forall₂ K.entries log log')
    (values : post a b s s') : Ends K post ⟨.ok a, log, s⟩ ⟨.ok b, log', s'⟩
  | error {e : ε} {log log' : List ω} {s s' : σ} (logs : List.Forall₂ K.entries log log')
    (states : K.states s s') : Ends K post ⟨.error e, log, s⟩ ⟨.error e, log', s'⟩

/-- From states with `pre` the two passes end alike. -/
def Relates (K : Pairing σ ω) (pre : σ → σ → Prop) (m m' : Pass σ ω ε α)
    (post : α → α → σ → σ → Prop) : Prop :=
  ∀ s s', pre s s' → K.Ends post (m s) (m' s')

/-- From states that compare the two passes end alike, with values that have `V` and with states
that compare again. -/
def Agrees (K : Pairing σ ω) (m m' : Pass σ ω ε α) (V : α → α → Prop) : Prop :=
  K.Relates K.states m m' fun a b s s' => V a b ∧ K.states s s'

/-! ### Sequences -/

theorem relates_pure {pre : σ → σ → Prop} {post : α → α → σ → σ → Prop} {a b : α}
    (h : ∀ s s', pre s s' → post a b s s') :
    K.Relates pre (pure a : Pass σ ω ε α) (pure b) post :=
  fun s s' hs => .ok .nil (h s s' hs)

/-- One pair of passes behind the other, where the values and states in between have `mid`. -/
theorem Relates.bind {pre : σ → σ → Prop} {mid : α → α → σ → σ → Prop}
    {post : β → β → σ → σ → Prop} {m m' : Pass σ ω ε α} {f f' : α → Pass σ ω ε β}
    (hm : K.Relates pre m m' mid) (hf : ∀ a b, K.Relates (mid a b) (f a) (f' b) post) :
    K.Relates pre (m >>= f) (m' >>= f') post := by
  intro s s' hs
  have hends := hm s s' hs
  generalize hr : m s = r at hends
  generalize hr' : m' s' = r' at hends
  -- if the first passes fail, they fail together, and what follows is not run
  cases hends with
  | error logs states =>
    rw [bind_of_error hr, bind_of_error hr']
    exact .error logs states
  | @ok a b log log' s₁ s₁' logs values =>
    rw [bind_of_ok hr, bind_of_ok hr']
    have hrest := hf a b s₁ s₁' values
    generalize f a s₁ = q at hrest ⊢
    generalize f' b s₁' = q' at hrest ⊢
    cases hrest with
    | error logs' states => exact .error (List.rel_append logs logs') states
    | ok logs' values' => exact .ok (List.rel_append logs logs') values'

/-- Less may be asked of the states at the beginning, and more be said about the end, of passes that
a pairing `Relates`. -/
theorem Relates.mono {pre pre' : σ → σ → Prop} {post post' : α → α → σ → σ → Prop}
    {m m' : Pass σ ω ε α} (h : K.Relates pre m m' post) (hpre : ∀ s s', pre' s s' → pre s s')
    (hpost : ∀ a b s s', post a b s s' → post' a b s s') : K.Relates pre' m m' post' := by
  intro s s' hs
  have hends := h s s' (hpre s s' hs)
  generalize m s = r at hends ⊢
  generalize m' s' = r' at hends ⊢
  cases hends with
  | error logs states => exact .error logs states
  | ok logs values => exact .ok logs (hpost _ _ _ _ values)

/-- What is made of the values of two passes that a pairing `Relates`. -/
theorem Relates.map {pre : σ → σ → Prop} {mid : α → α → σ → σ → Prop} {post : β → β → σ → σ → Prop}
    {m m' : Pass σ ω ε α} {f g : α → β} (hm : K.Relates pre m m' mid)
    (h : ∀ a b s s', mid a b s s' → post (f a) (g b) s s') :
    K.Relates pre (f <$> m) (g <$> m') post := by
  rw [← bind_pure_comp, ← bind_pure_comp]
  exact hm.bind fun a b => relates_pure (h a b)

theorem agrees_pure {V : α → α → Prop} {a b : α} (h : V a b) :
    K.Agrees (pure a : Pass σ ω ε α) (pure b) V :=
  relates_pure fun _ _ hs => ⟨h, hs⟩

/-- Behind a pair of passes that give values with `V`, the pairs of what follows matter only for
such values. -/
theorem Agrees.bind {V : α → α → Prop} {W : β → β → Prop} {m m' : Pass σ ω ε α}
    {f f' : α → Pass σ ω ε β} (hm : K.Agrees m m' V) (hf : ∀ a b, V a b → K.Agrees (f a) (f' b) W) :
    K.Agrees (m >>= f) (m' >>= f') W :=
  Relates.bind hm fun a b s s' ⟨hab, hs⟩ => hf a b hab s s' hs

/-- What is made of the values of two passes for which `Agrees` holds. -/
theorem Agrees.map {V : α → α → Prop} {W : β → β → Prop} {m m' : Pass σ ω ε α} {f g : α → β}
    (hm : K.Agrees m m' V) (h : ∀ a b, V a b → W (f a) (g b)) : K.Agrees (f <$> m) (g <$> m') W :=
  Relates.map hm fun a b _ _ ⟨hab, hs⟩ => ⟨h a b hab, hs⟩

theorem Agrees.discard {V : α → α → Prop} {m m' : Pass σ ω ε α} (hm : K.Agrees m m' V) :
    K.Agrees (discard m) (discard m') fun _ _ => True :=
  hm.map fun _ _ _ => trivial

/-- To `write` entries that compare on both sides `Agrees`. -/
theorem agrees_write {entry entry' : ω} (h : K.entries entry entry') :
    K.Agrees (write entry : Pass σ ω ε Unit) (write entry') fun _ _ => True :=
  fun _ _ hs => .ok (.cons h .nil) ⟨trivial, hs⟩

theorem agrees_fail {V : α → α → Prop} (e : ε) : K.Agrees (fail e : Pass σ ω ε α) (fail e) V :=
  fun _ _ hs => .error .nil hs

end Pairing

end Pass

end Tricode
