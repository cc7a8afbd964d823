/-!
# Passes

A pass is a computation that threads a state, writes a log, and may fail. State and log outlive a
failure: what was read, declared or emitted before it stays. All phases behind the scanner are
passes: the parser logs diagnostics, the checker logs findings, and the code generator logs the
instructions it emits.

The log is an output only. A pass cannot look at it, so what a pass does depends on the state alone
and the log of a sequence is the concatenation of its parts' logs (`bind_of_ok`).
-/

namespace Tricode

/-- What a pass leaves behind. -/
structure Outcome (σ ω ε α : Type) where
  value : Except ε α
  log : List ω
  state : σ

/-- A pass over states `σ` that logs entries `ω` and gives an `α` or fails with an `ε`. -/
def Pass (σ ω ε α : Type) : Type :=
  σ → Outcome σ ω ε α

namespace Pass

variable {σ ω ε α β : Type}

instance : Monad (Pass σ ω ε) where
  pure a := fun s => ⟨.ok a, [], s⟩
  bind m f := fun s =>
    match m s with
    | ⟨.ok a, log, s'⟩ =>
      let r := f a s'
      ⟨r.value, log ++ r.log, r.state⟩
    | ⟨.error e, log, s'⟩ => ⟨.error e, log, s'⟩

/-- Fails. -/
def fail (e : ε) : Pass σ ω ε α := fun s => ⟨.error e, [], s⟩

/-- Logs one entry. -/
def write (entry : ω) : Pass σ ω ε Unit := fun s => ⟨.ok (), [entry], s⟩

/-- The current state. -/
def get : Pass σ ω ε σ := fun s => ⟨.ok s, [], s⟩

/-- Changes the state. -/
def modify (f : σ → σ) : Pass σ ω ε Unit := fun s => ⟨.ok (), [], f s⟩

/-- The value of a computation that neither logs nor changes anything. -/
def ofExcept (v : Except ε α) : Pass σ ω ε α := fun s => ⟨v, [], s⟩

/-- Runs a pass and gives its failure as a value, so that nothing is left to fail. -/
def attempt {ε' : Type} (m : Pass σ ω ε α) : Pass σ ω ε' (Except ε α) := fun s =>
  let r := m s
  ⟨.ok r.value, r.log, r.state⟩

/-- Runs a pass that has no state of its own. -/
def lift (m : Pass Unit ω ε α) : Pass σ ω ε α := fun s =>
  let r := m ()
  ⟨r.value, r.log, s⟩

@[simp] theorem pure_apply (a : α) (s : σ) :
    (pure a : Pass σ ω ε α) s = ⟨.ok a, [], s⟩ := rfl

/-- A `Pass` that succeeds hands its value and its state on, and the logs are joined. -/
theorem bind_of_ok {m : Pass σ ω ε α} {f : α → Pass σ ω ε β} {s s' : σ} {a : α} {log : List ω}
    (h : m s = ⟨.ok a, log, s'⟩) :
    (m >>= f) s = ⟨(f a s').value, log ++ (f a s').log, (f a s').state⟩ := by
  simp only [bind, h]

/-- A `Pass` that fails ends the sequence, with its log and its state. -/
theorem bind_of_error {m : Pass σ ω ε α} {f : α → Pass σ ω ε β} {s s' : σ} {e : ε} {log : List ω}
    (h : m s = ⟨.error e, log, s'⟩) : (m >>= f) s = ⟨.error e, log, s'⟩ := by
  simp only [bind, h]

instance : LawfulMonad (Pass σ ω ε) := LawfulMonad.mk' _
  (by
    intro α m
    funext s
    simp only [Functor.map, Function.comp]
    split <;> next h => simp [h])
  (by
    intro α β a f
    funext s
    simp [bind, pure])
  (by
    intro α β γ m f g
    funext s
    simp only [bind]
    cases h : m s with
    | mk value log s' =>
      cases value with
      | error e => simp
      | ok a =>
        simp only
        cases h' : f a s' with
        | mk value' log' s'' => cases value' <;> simp)

end Pass

/-- The value of a pass that cannot fail. -/
def Outcome.get {σ ω α : Type} (r : Outcome σ ω Empty α) : α :=
  match r.value with
  | .ok a => a

end Tricode
