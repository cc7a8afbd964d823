import Tricode.Pass

/-!
# Passes that log nothing

`Pass.Yields m s a s'` says that `m` succeeds from `s` with `a`, ends in `s'`, and logs nothing.
Since logs are only ever joined, a sequence yields a value exactly if each of its parts does
(`Pass.yields_bind_iff`), so a run without entries is taken apart step by step.

`Pass.Reports m` says that `m` never fails in silence. It is what makes a failure that was caught on
the way visible in the log. `Pass.Explains R m` adds that the last entry tells why. `Pass.Ensures
inv m Q` says that `m` never fails at all from a state with `inv`, and that its silence tells `Q`.

More properties are carried through sequences in the same way: what all its entries have in common
(`Pass.Logs`), and what its values have in common besides (`Pass.Makes`), when it succeeds and how
it fails otherwise (`Pass.SucceedsIff`), and when it succeeds in silence (`Pass.Decides`).
`Pass.Settles P Q m` says that `m` gives values with `P`, and others only if it logs something.

`Outcome.Within` compares a run with another run that is a part of it.
-/

namespace Tricode

variable {σ ω ε α β : Type}

/-- An `Outcome` is known by its parts. -/
theorem Outcome.eq_mk {r : Outcome σ ω ε α} {value : Except ε α} {log : List ω} {state : σ}
    (hvalue : r.value = value) (hlog : r.log = log) (hstate : r.state = state) :
    r = ⟨value, log, state⟩ := by
  subst hvalue hlog hstate
  rfl

theorem Outcome.value_eq_ok_of_get {σ ω α : Type} {r : Outcome σ ω Empty α} {a : α}
    (h : r.get = a) : r.value = .ok a := by
  obtain ⟨value, log, state⟩ := r
  cases value with
  | ok b => exact congrArg Except.ok h
  | error e => cases e

namespace Pass

theorem ofExcept_ok (a : α) : (ofExcept (.ok a) : Pass σ ω ε α) = pure a := rfl

/-- Passes that succeed one behind the other. -/
theorem bind_eq {m : Pass σ ω ε α} {f : α → Pass σ ω ε β} {s s' s'' : σ} {a : α} {b : β}
    {log log' : List ω} (hm : m s = ⟨.ok a, log, s'⟩) (hf : f a s' = ⟨.ok b, log', s''⟩) :
    (m >>= f) s = ⟨.ok b, log ++ log', s''⟩ := by
  rw [bind_of_ok hm, hf]

/-- A pass that succeeds, behind which nothing is logged. -/
theorem bind_eq_of_silent {m : Pass σ ω ε α} {f : α → Pass σ ω ε β} {s s' s'' : σ} {a : α} {b : β}
    {log : List ω} (hm : m s = ⟨.ok a, log, s'⟩) (hf : f a s' = ⟨.ok b, [], s''⟩) :
    (m >>= f) s = ⟨.ok b, log, s''⟩ := by
  rw [bind_eq hm hf, List.append_nil]

/-- `discard` leaves all of the outcome but the value as it is. -/
theorem discard_eq {m : Pass σ ω ε α} {s s' : σ} {a : α} {log : List ω}
    (h : m s = ⟨.ok a, log, s'⟩) : discard m s = ⟨.ok (), log, s'⟩ := by
  have hdiscard : discard m = (fun _ => ()) <$> m := rfl
  rw [hdiscard, ← bind_pure_comp]
  exact bind_eq_of_silent h rfl

/-- A value that is not looked at is handed on by `discard` as nothing. -/
theorem discard_bind (m : Pass σ ω ε α) (f : Unit → Pass σ ω ε β) :
    discard m >>= f = m >>= fun _ => f () := by
  have hdiscard : discard m = (fun _ => ()) <$> m := rfl
  rw [hdiscard, bind_map_left]

/-- The state does not depend on what is made of the value. -/
theorem state_bind_pure (m : Pass σ ω ε α) (f : α → β) (s : σ) :
    ((m >>= fun a => pure (f a)) s).state = (m s).state := by
  cases h : m s with
  | mk value log s' =>
    cases value with
    | error e => rw [bind_of_error h]
    | ok a =>
      rw [bind_of_ok h]
      rfl

/-! ### Runs without entries -/

/-- The pass succeeds from `s` with `a`, ends in `s'`, and logs nothing. -/
def Yields (m : Pass σ ω ε α) (s : σ) (a : α) (s' : σ) : Prop :=
  m s = ⟨.ok a, [], s'⟩

/-- Behind a pass that `Yields` a value, a sequence goes on as if it began there. -/
theorem Yields.bind_apply {m : Pass σ ω ε α} {f : α → Pass σ ω ε β} {s s' : σ} {a : α}
    (h : m.Yields s a s') : (m >>= f) s = f a s' := by
  rw [bind_of_ok h]
  rfl

/-- A sequence `Yields` a value exactly if its parts do, one from where the other ends. -/
theorem yields_bind_iff {m : Pass σ ω ε α} {f : α → Pass σ ω ε β} {s s'' : σ} {b : β} :
    (m >>= f).Yields s b s'' ↔ ∃ a s', m.Yields s a s' ∧ (f a).Yields s' b s'' := by
  constructor
  · intro h
    cases hm : m s with
    | mk value log s' =>
      cases value with
      | error e =>
        rw [Yields, bind_of_error hm] at h
        simp at h
      | ok a =>
        rw [Yields, bind_of_ok hm, Outcome.mk.injEq, List.append_eq_nil_iff] at h
        -- a log that is empty is empty on both sides
        obtain ⟨hvalue, ⟨rfl, hlog⟩, hstate⟩ := h
        exact ⟨a, s', hm, Outcome.eq_mk hvalue hlog hstate⟩
  · rintro ⟨a, s', hm, hf⟩
    rw [Yields, hm.bind_apply]
    exact hf

/-- `pure` yields its value where it stands. -/
theorem yields_pure_iff {a b : α} {s s' : σ} :
    (pure a : Pass σ ω ε α).Yields s b s' ↔ b = a ∧ s' = s := by
  rw [Yields, pure_apply, Outcome.mk.injEq, Except.ok.injEq]
  simp only [true_and, eq_comm]

theorem yields_map_iff {m : Pass σ ω ε α} {f : α → β} {s s' : σ} {b : β} :
    (f <$> m).Yields s b s' ↔ ∃ a, m.Yields s a s' ∧ b = f a := by
  rw [← bind_pure_comp, yields_bind_iff]
  constructor
  · rintro ⟨a, s₁, hm, hf⟩
    obtain ⟨rfl, rfl⟩ := yields_pure_iff.1 hf
    exact ⟨a, hm, rfl⟩
  · rintro ⟨a, hm, rfl⟩
    exact ⟨a, s', hm, yields_pure_iff.2 ⟨rfl, rfl⟩⟩

/-- `write` does not yield anything in silence. -/
theorem not_yields_write {entry : ω} {s s' : σ} {u : Unit} :
    ¬ (write entry : Pass σ ω ε Unit).Yields s u s' := by
  simp [Yields, write]

/-- What a pass `Yields` is determined by where it starts. -/
theorem Yields.unique {m : Pass σ ω ε α} {s s₁ s₂ : σ} {a b : α} (h₁ : m.Yields s a s₁)
    (h₂ : m.Yields s b s₂) : a = b ∧ s₁ = s₂ := by
  have h := Eq.trans (Eq.symm h₁) h₂
  simpa using h

/-! ### Failures that are logged -/

/-- The pass logs something whenever it fails. -/
def Reports (m : Pass σ ω ε α) : Prop :=
  ∀ s e, (m s).value = .error e → (m s).log ≠ []

/-- Whenever the pass fails, its last entry is related to the failure. -/
def Explains (R : ε → ω → Prop) (m : Pass σ ω ε α) : Prop :=
  ∀ s e, (m s).value = .error e → ∃ log entry, (m s).log = log ++ [entry] ∧ R e entry

section

variable {R : ε → ω → Prop}

/-- A pass that `Explains` its failures reports them. -/
theorem Explains.reports {m : Pass σ ω ε α} (h : m.Explains R) : m.Reports := by
  intro s e he
  obtain ⟨log, entry, hlog, -⟩ := h s e he
  rw [hlog]
  exact List.append_ne_nil_of_right_ne_nil _ (List.cons_ne_nil _ _)

/-- A pass that never fails has nothing to explain. -/
theorem explains_of_ok {m : Pass σ ω ε α} (h : ∀ s, ∃ a, (m s).value = .ok a) : m.Explains R := by
  intro s e he
  obtain ⟨a, ha⟩ := h s
  rw [ha] at he
  cases he

theorem explains_pure (a : α) : (pure a : Pass σ ω ε α).Explains R :=
  explains_of_ok fun _ => ⟨a, rfl⟩

/-- One pass that `Explains` behind the other: the last entry is that of the one that fails. -/
theorem Explains.bind {m : Pass σ ω ε α} {f : α → Pass σ ω ε β} (hm : m.Explains R)
    (hf : ∀ a, (f a).Explains R) : (m >>= f).Explains R := by
  intro s e he
  cases h : m s with
  | mk value log s' =>
    cases value with
    | error e' =>
      have hlog := hm s e' (by rw [h])
      rw [h] at hlog
      rw [bind_of_error h] at he ⊢
      cases he
      exact hlog
    | ok a =>
      rw [bind_of_ok h] at he ⊢
      obtain ⟨log', entry, hlog', hR⟩ := hf a s' e he
      exact ⟨log ++ log', entry, by rw [hlog', List.append_assoc], hR⟩

theorem Explains.map {m : Pass σ ω ε α} (f : α → β) (hm : m.Explains R) : (f <$> m).Explains R := by
  rw [← bind_pure_comp]
  exact hm.bind fun a => explains_pure (f a)

end

/-! ### Passes that never fail -/

/-- From every state with `inv` the pass succeeds in a state with `inv`, and if it logs nothing then
`Q` holds. -/
def Ensures (inv : σ → Prop) (m : Pass σ ω ε α) (Q : Prop) : Prop :=
  ∀ s, inv s → (∃ a, (m s).value = .ok a) ∧ inv (m s).state ∧ ((m s).log = [] → Q)

theorem Ensures.mono {inv : σ → Prop} {m : Pass σ ω ε α} {Q R : Prop} (h : m.Ensures inv Q)
    (hQ : Q → R) : m.Ensures inv R :=
  fun s hs => ⟨(h s hs).1, (h s hs).2.1, fun hlog => hQ ((h s hs).2.2 hlog)⟩

theorem ensures_pure {inv : σ → Prop} (a : α) : (pure a : Pass σ ω ε α).Ensures inv True :=
  fun _ hs => ⟨⟨a, rfl⟩, hs, fun _ => trivial⟩

theorem ensures_write {inv : σ → Prop} (entry : ω) (Q : Prop) :
    (write entry : Pass σ ω ε Unit).Ensures inv Q :=
  fun _ hs => ⟨⟨(), rfl⟩, hs, fun hlog => by simp [write] at hlog⟩

/-- One pass behind the other `Ensures` what both ensure. -/
theorem Ensures.bind {inv : σ → Prop} {m : Pass σ ω ε α} {f : α → Pass σ ω ε β} {Q R : Prop}
    (hm : m.Ensures inv Q) (hf : ∀ a, (f a).Ensures inv R) : (m >>= f).Ensures inv (Q ∧ R) := by
  intro s hs
  obtain ⟨⟨a, hvalue⟩, hinv, hlog⟩ := hm s hs
  obtain ⟨hvalue', hinv', hlog'⟩ := hf a _ hinv
  rw [bind_of_ok (Outcome.eq_mk hvalue rfl rfl)]
  refine ⟨hvalue', hinv', fun hnil => ?_⟩
  obtain ⟨hnil, hnil'⟩ := List.append_eq_nil_iff.1 hnil
  exact ⟨hlog hnil, hlog' hnil'⟩

/-- A pass that begins by looking at the state. -/
theorem ensures_get_bind {inv : σ → Prop} {f : σ → Pass σ ω ε α} {Q : Prop}
    (h : ∀ s, inv s → (f s).Ensures inv Q) : (Pass.get >>= f).Ensures inv Q :=
  fun s hs => h s hs s hs

theorem Ensures.bind_pure {inv : σ → Prop} {m : Pass σ ω ε α} {Q : Prop} (hm : m.Ensures inv Q)
    (f : α → β) : (m >>= fun a => pure (f a)).Ensures inv Q :=
  (hm.bind fun a => ensures_pure (f a)).mono And.left

theorem Ensures.map {inv : σ → Prop} {m : Pass σ ω ε α} {Q : Prop} (hm : m.Ensures inv Q)
    (f : α → β) : (f <$> m).Ensures inv Q := by
  rw [← bind_pure_comp]
  exact hm.bind_pure f

theorem Ensures.discard {inv : σ → Prop} {m : Pass σ ω ε α} {Q : Prop} (hm : m.Ensures inv Q) :
    (discard m).Ensures inv Q :=
  hm.map fun _ => ()

/-! ### What a pass logs -/

/-- All entries of the pass have `P`. -/
def Logs (P : ω → Prop) (m : Pass σ ω ε α) : Prop :=
  ∀ s, ∀ entry ∈ (m s).log, P entry

/-- A pass that `Logs` nothing logs only what has `P`. -/
theorem logs_of_silent {P : ω → Prop} {m : Pass σ ω ε α} (h : ∀ s, (m s).log = []) : m.Logs P := by
  intro s entry hentry
  rw [h s] at hentry
  cases hentry

theorem logs_pure {P : ω → Prop} (a : α) : (pure a : Pass σ ω ε α).Logs P :=
  logs_of_silent fun _ => rfl

theorem logs_write {P : ω → Prop} {entry : ω} (h : P entry) :
    (write entry : Pass σ ω ε Unit).Logs P :=
  fun _ => List.forall_mem_singleton.2 h

/-- All entries of the pass have `P`, and the value that it gives has `Q`. -/
def Makes (P : ω → Prop) (Q : α → Prop) (m : Pass σ ω ε α) : Prop :=
  ∀ s, (∀ entry ∈ (m s).log, P entry) ∧ ∀ a, (m s).value = .ok a → Q a

section

variable {P : ω → Prop} {Q : α → Prop} {R : β → Prop}

theorem Makes.logs {m : Pass σ ω ε α} (h : m.Makes P Q) : m.Logs P :=
  fun s => (h s).1

theorem Logs.makes {m : Pass σ ω ε α} (h : m.Logs P) : m.Makes P fun _ => True :=
  fun s => ⟨h s, fun _ _ => trivial⟩

theorem makes_pure {a : α} (h : Q a) : (pure a : Pass σ ω ε α).Makes P Q := by
  refine fun s => ⟨List.forall_mem_nil _, fun b hb => ?_⟩
  obtain rfl := Except.ok.inj hb
  exact h

theorem makes_ofExcept {v : Except ε α} (h : ∀ a, v = .ok a → Q a) :
    (ofExcept v : Pass σ ω ε α).Makes P Q :=
  fun _ => ⟨List.forall_mem_nil _, h⟩

theorem makes_fail (e : ε) : (fail e : Pass σ ω ε α).Makes P Q := by
  refine fun s => ⟨List.forall_mem_nil _, fun a ha => ?_⟩
  cases ha

/-- One pass behind the other, where the second may use what the first `Makes`. -/
theorem Makes.bind {m : Pass σ ω ε α} {f : α → Pass σ ω ε β} (hm : m.Makes P Q)
    (hf : ∀ a, Q a → (f a).Makes P R) : (m >>= f).Makes P R := by
  intro s
  obtain ⟨hlog, hvalue⟩ := hm s
  cases h : m s with
  | mk value log s' =>
    rw [h] at hlog hvalue
    cases value with
    | error e =>
      rw [bind_of_error h]
      refine ⟨hlog, fun b hb => ?_⟩
      cases hb
    | ok a =>
      rw [bind_of_ok h]
      obtain ⟨hlog', hvalue'⟩ := hf a (hvalue a rfl) s'
      exact ⟨List.forall_mem_append.2 ⟨hlog, hlog'⟩, hvalue'⟩

end

/-- A part about which nothing is known. -/
theorem makes_bind {R : β → Prop} {m : Pass σ ω ε α} {f : α → Pass σ ω ε β}
    (hf : ∀ a, (f a).Makes (fun _ => True) R) : (m >>= f).Makes (fun _ => True) R :=
  Makes.bind (Q := fun _ => True) (fun _ => ⟨fun _ _ => trivial, fun _ _ => trivial⟩)
    fun a _ => hf a

theorem Logs.bind {P : ω → Prop} {m : Pass σ ω ε α} {f : α → Pass σ ω ε β} (hm : m.Logs P)
    (hf : ∀ a, (f a).Logs P) : (m >>= f).Logs P :=
  (hm.makes.bind fun a _ => (hf a).makes).logs

theorem Logs.map {P : ω → Prop} {m : Pass σ ω ε α} (hm : m.Logs P) (f : α → β) :
    (f <$> m).Logs P := by
  rw [← bind_pure_comp]
  exact hm.bind fun a => logs_pure (f a)

theorem Logs.discard {P : ω → Prop} {m : Pass σ ω ε α} (hm : m.Logs P) : (discard m).Logs P :=
  hm.map fun _ => ()

theorem Logs.lift {P : ω → Prop} {m : Pass Unit ω ε α} (hm : m.Logs P) :
    (lift m : Pass σ ω ε α).Logs P :=
  fun _ => hm ()

theorem logs_get {P : ω → Prop} : (get : Pass σ ω ε σ).Logs P :=
  logs_of_silent fun _ => rfl

theorem logs_modify {P : ω → Prop} (f : σ → σ) : (modify f : Pass σ ω ε Unit).Logs P :=
  logs_of_silent fun _ => rfl

theorem logs_ofExcept {P : ω → Prop} (v : Except ε α) : (ofExcept v : Pass σ ω ε α).Logs P :=
  logs_of_silent fun _ => rfl

/-! ### Success and failure -/

/-- From every state the pass succeeds exactly if `Q` holds, and fails otherwise with a failure that
has `P`. -/
def SucceedsIff (P : ε → Prop) (m : Pass σ ω ε α) (Q : Prop) : Prop :=
  ∀ s, ((∃ a, (m s).value = .ok a) ↔ Q) ∧ ∀ e, (m s).value = .error e → P e

theorem succeedsIff_of_ok {P : ε → Prop} {m : Pass σ ω ε α} (h : ∀ s, ∃ a, (m s).value = .ok a) :
    m.SucceedsIff P True := by
  intro s
  obtain ⟨a, ha⟩ := h s
  exact ⟨⟨fun _ => trivial, fun _ => ⟨a, ha⟩⟩, fun e he => by simp [ha] at he⟩

theorem SucceedsIff.congr {P : ε → Prop} {m : Pass σ ω ε α} {Q R : Prop} (h : m.SucceedsIff P Q)
    (hQR : Q ↔ R) : m.SucceedsIff P R :=
  fun s => ⟨(h s).1.trans hQR, (h s).2⟩

/-- One pass behind the other succeeds exactly if both do, by `SucceedsIff`. -/
theorem SucceedsIff.bind {P : ε → Prop} {m : Pass σ ω ε α} {f : α → Pass σ ω ε β} {Q R : Prop}
    (hm : m.SucceedsIff P Q) (hf : ∀ a, (f a).SucceedsIff P R) :
    (m >>= f).SucceedsIff P (Q ∧ R) := by
  intro s
  obtain ⟨hQ, hP⟩ := hm s
  cases h : m s with
  | mk value log s' =>
    rw [h] at hQ hP
    cases value with
    | error e =>
      have hnot : ¬ Q := fun hq => by simpa using hQ.2 hq
      rw [bind_of_error h]
      refine ⟨⟨fun ⟨_, ha⟩ => by simp at ha, fun hqr => absurd hqr.1 hnot⟩, fun e' he' => ?_⟩
      exact hP e' (congrArg Except.error (Except.error.inj he'))
    | ok a =>
      have hq : Q := hQ.1 ⟨a, rfl⟩
      obtain ⟨hR, hP'⟩ := hf a s'
      rw [bind_of_ok h]
      exact ⟨hR.trans ⟨fun hr => ⟨hq, hr⟩, And.right⟩, hP'⟩

/-- A sequence whose second part always succeeds. -/
theorem SucceedsIff.bind_ok {P : ε → Prop} {m : Pass σ ω ε α} {f : α → Pass σ ω ε β} {Q : Prop}
    (hm : m.SucceedsIff P Q) (hf : ∀ a, (f a).SucceedsIff P True) : (m >>= f).SucceedsIff P Q :=
  (hm.bind hf).congr (and_iff_left trivial)

/-- A sequence whose first part always succeeds. -/
theorem SucceedsIff.ok_bind {P : ε → Prop} {m : Pass σ ω ε α} {f : α → Pass σ ω ε β} {Q : Prop}
    (hm : m.SucceedsIff P True) (hf : ∀ a, (f a).SucceedsIff P Q) : (m >>= f).SucceedsIff P Q :=
  (hm.bind hf).congr (and_iff_right trivial)

/-! ### Success in silence -/

/-- From a state with `inv` the pass succeeds in silence exactly if `Q` holds, and then it ends in a
state with `inv'`. -/
def Decides (inv : σ → Prop) (m : Pass σ ω ε α) (Q : Prop) (inv' : σ → Prop) : Prop :=
  ∀ s, inv s →
    (Q → ∃ a s', m.Yields s a s') ∧ ∀ a s', m.Yields s a s' → Q ∧ inv' s'

theorem decides_pure {inv : σ → Prop} (a : α) : (pure a : Pass σ ω ε α).Decides inv True inv := by
  intro s hs
  refine ⟨fun _ => ⟨a, s, rfl⟩, fun b s' h => ?_⟩
  obtain ⟨-, rfl⟩ := yields_pure_iff.1 h
  exact ⟨trivial, hs⟩

theorem decides_modify {inv inv' : σ → Prop} {f : σ → σ} (h : ∀ s, inv s → inv' (f s)) :
    (modify f : Pass σ ω ε Unit).Decides inv True inv' := by
  intro s hs
  refine ⟨fun _ => ⟨(), f s, rfl⟩, fun _ s' hyields => ⟨trivial, ?_⟩⟩
  obtain rfl : f s = s' := (Outcome.mk.inj hyields).2.2
  exact h s hs

/-- What `Decides` may be put in another way, given what is known of the state. -/
theorem Decides.congr {inv inv' : σ → Prop} {m : Pass σ ω ε α} {Q R : Prop}
    (h : m.Decides inv Q inv') (hQR : ∀ s, inv s → (Q ↔ R)) : m.Decides inv R inv' := by
  intro s hs
  obtain ⟨hyields, hresult⟩ := h s hs
  refine ⟨fun hr => hyields ((hQR s hs).2 hr), fun a s' ha => ?_⟩
  obtain ⟨hq, hinv'⟩ := hresult a s' ha
  exact ⟨(hQR s hs).1 hq, hinv'⟩

/-- One pass that `Decides` behind the other: the two are silent exactly if both are. -/
theorem Decides.bind {inv inv₁ inv₂ : σ → Prop} {m : Pass σ ω ε α} {f : α → Pass σ ω ε β}
    {Q R : Prop} (hm : m.Decides inv Q inv₁) (hf : ∀ a, (f a).Decides inv₁ R inv₂) :
    (m >>= f).Decides inv (Q ∧ R) inv₂ := by
  intro s hs
  obtain ⟨hyields, hresult⟩ := hm s hs
  -- if both conditions hold, both passes yield; and if both passes yield, both conditions hold
  constructor
  · rintro ⟨hq, hr⟩
    obtain ⟨a, s₁, ha⟩ := hyields hq
    obtain ⟨b, s₂, hb⟩ := (hf a s₁ (hresult a s₁ ha).2).1 hr
    exact ⟨b, s₂, yields_bind_iff.2 ⟨a, s₁, ha, hb⟩⟩
  · intro b s₂ h
    obtain ⟨a, s₁, ha, hb⟩ := yields_bind_iff.1 h
    obtain ⟨hq, hinv⟩ := hresult a s₁ ha
    obtain ⟨hr, hinv₂⟩ := (hf a s₁ hinv).2 b s₂ hb
    exact ⟨⟨hq, hr⟩, hinv₂⟩

/-- A pass that begins by looking at the state. -/
theorem decides_get_bind {inv inv' : σ → Prop} {f : σ → Pass σ ω ε α} {Q : Prop}
    (h : ∀ s, inv s → (f s).Decides inv Q inv') : (Pass.get >>= f).Decides inv Q inv' :=
  fun s hs => h s hs s hs

theorem Decides.bind_pure {inv inv' : σ → Prop} {m : Pass σ ω ε α} {Q : Prop}
    (hm : m.Decides inv Q inv') (f : α → β) :
    (m >>= fun a => pure (f a)).Decides inv Q inv' :=
  (hm.bind fun a => decides_pure (f a)).congr fun _ _ => and_iff_left trivial

theorem Decides.map {inv inv' : σ → Prop} {m : Pass σ ω ε α} {Q : Prop}
    (hm : m.Decides inv Q inv') (f : α → β) : (f <$> m).Decides inv Q inv' := by
  rw [← bind_pure_comp]
  exact hm.bind_pure f

theorem Decides.discard {inv inv' : σ → Prop} {m : Pass σ ω ε α} {Q : Prop}
    (hm : m.Decides inv Q inv') : (discard m).Decides inv Q inv' :=
  hm.map fun _ => ()

/-! ### Values that are explained -/

/-- The pass gives values with `P`, or else values with `Q`, and those not in silence. -/
def Settles (P Q : α → Prop) (m : Pass σ ω ε α) : Prop :=
  ∀ s a, (m s).value = .ok a → P a ∨ Q a ∧ (m s).log ≠ []

section

variable {P Q : α → Prop} {P' Q' : β → Prop}

theorem settles_pure {a : α} (h : P a) : (pure a : Pass σ ω ε α).Settles P Q := by
  intro s b hb
  obtain rfl := Except.ok.inj hb
  exact .inl h

theorem settles_fail (e : ε) : (fail e : Pass σ ω ε α).Settles P Q := by
  intro s a ha
  cases ha

/-- A pass that logs an entry with its value `Settles`. -/
theorem settles_write_pure (entry : ω) {a : α} (h : Q a) :
    (write entry >>= fun _ => pure a : Pass σ ω ε α).Settles P Q := by
  intro s b hb
  obtain rfl := Except.ok.inj hb
  exact .inr ⟨h, List.cons_ne_nil _ _⟩

/-- What has been logged stays logged, so behind a value with `Q` only the value counts. -/
theorem Settles.bind {m : Pass σ ω ε α} {f : α → Pass σ ω ε β} (hm : m.Settles P Q)
    (hP : ∀ a, P a → (f a).Settles P' Q')
    (hQ : ∀ a, Q a → (f a).Makes (fun _ => True) fun b => P' b ∨ Q' b) :
    (m >>= f).Settles P' Q' := by
  intro s b hb
  cases h : m s with
  | mk value log s' =>
    cases value with
    | error e =>
      rw [bind_of_error h] at hb
      cases hb
    | ok a =>
      rw [bind_of_ok h] at hb ⊢
      have hsettled := hm s a
      rw [h] at hsettled
      -- the value is fine so far, or something has been logged already
      rcases hsettled rfl with hPa | ⟨hQa, hlog⟩
      · refine (hP a hPa s' b hb).imp_right fun hsecond => ⟨hsecond.1, ?_⟩
        exact List.append_ne_nil_of_right_ne_nil _ hsecond.2
      · refine ((hQ a hQa s').2 b hb).imp_right fun hsecond => ⟨hsecond, ?_⟩
        exact List.append_ne_nil_of_left_ne_nil hlog _

/-- A part about which nothing is known. -/
theorem settles_bind {m : Pass σ ω ε α} {f : α → Pass σ ω ε β} (hf : ∀ a, (f a).Settles P' Q') :
    (m >>= f).Settles P' Q' :=
  Settles.bind (P := fun _ => True) (Q := fun _ => False) (fun _ _ _ => .inl trivial)
    (fun a _ => hf a) fun _ h => h.elim

end

end Pass

/-! ### Runs inside runs -/

/-- The run `r'` is a part of the run `r`: if it fails then `r` fails in the same way, and what it
logs is logged in one piece. -/
structure Outcome.Within {σ' : Type} (r' : Outcome σ' ω ε β) (r : Outcome σ ω ε α) : Prop where
  failure : ∀ e, r'.value = .error e → r.value = .error e
  log : r'.log <:+: r.log

namespace Outcome

theorem Within.refl (r : Outcome σ ω ε α) : r.Within r :=
  ⟨fun _ h => h, List.infix_refl _⟩

theorem Within.trans {σ' σ'' γ : Type} {r'' : Outcome σ'' ω ε γ} {r' : Outcome σ' ω ε β}
    {r : Outcome σ ω ε α} (h : r''.Within r') (h' : r'.Within r) : r''.Within r :=
  ⟨fun e he => h'.failure e (h.failure e he), h.log.trans h'.log⟩

variable {σ' γ : Type} {r : Outcome σ' ω ε γ} {m : Pass σ ω ε α} {f : α → Pass σ ω ε β} {s : σ}

/-- What runs `Within` the first pass runs within both. -/
theorem Within.bind_left (h : r.Within (m s)) : r.Within ((m >>= f) s) := by
  cases hm : m s with
  | mk value log s' =>
    rw [hm] at h
    cases value with
    | error e =>
      rw [Pass.bind_of_error hm]
      refine ⟨fun e' he' => ?_, h.log⟩
      exact congrArg Except.error (Except.error.inj (h.failure e' he'))
    | ok a =>
      rw [Pass.bind_of_ok hm]
      refine ⟨fun e he => ?_, h.log.trans (List.prefix_append _ _).isInfix⟩
      cases h.failure e he

/-- What runs `Within` the second pass runs within both. -/
theorem Within.bind_right {a : α} {log : List ω} {s' : σ} (hm : m s = ⟨.ok a, log, s'⟩)
    (h : r.Within (f a s')) : r.Within ((m >>= f) s) := by
  rw [Pass.bind_of_ok hm]
  exact ⟨h.failure, h.log.trans (List.suffix_append _ _).isInfix⟩

end Outcome

end Tricode
