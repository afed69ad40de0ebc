import Mathlib

/-!
Rules of pre- and postconditions for stateful programs that can throw, where a
thrown exception keeps the state reached so far. A triple has two
postconditions: one for a returned value, one for an exception.
-/

namespace Passkey.Library

variable {ε σ α β : Type}

/-- What a computation that throws nothing returned came from its parts. -/
theorem bind_ok {x : Except ε α} {f : α → Except ε β} {b : β} (h : (x >>= f) = .ok b) :
    ∃ a, x = .ok a ∧ f a = .ok b := by
  cases x with
  | error e => cases h
  | ok a => exact ⟨a, rfl, h⟩

/-- A value that a sequence of two programs returned came from the first and
then from the second. -/
theorem run_bind {x : EStateM ε σ α} {f : α → EStateM ε σ β} {b : β} {s u : σ} :
    (x >>= f) s = .ok b u ↔ ∃ a t, x s = .ok a t ∧ f a t = .ok b u := by
  show (match x s with
    | .ok a t => f a t
    | .error e t => .error e t) = .ok b u ↔ _
  cases hx : x s with
  | ok a t =>
      constructor
      · intro h
        exact ⟨a, t, rfl, h⟩
      · rintro ⟨a', t', heq, h⟩
        cases heq
        exact h
  | error e t =>
      constructor
      · intro h
        cases h
      · rintro ⟨a', t', heq, -⟩
        cases heq

/-- From a state with `P`, `m` returns a value and state with `Q` or throws in
a state with `E`. -/
def Triple (P : σ → Prop) (m : EStateM ε σ α) (Q : α → σ → Prop) (E : σ → Prop) : Prop :=
  ∀ s, P s → match m s with
    | .ok a t => Q a t
    | .error _ t => E t

namespace Triple

variable {P : σ → Prop} {Q : α → σ → Prop} {E : σ → Prop}

theorem pure {a : α} (h : ∀ s, P s → Q a s) : Triple P (Pure.pure a : EStateM ε σ α) Q E :=
  fun s hs => h s hs

theorem throw {e : ε} (h : ∀ s, P s → E s) : Triple P (MonadExcept.throw e : EStateM ε σ α) Q E :=
  fun s hs => h s hs

/-- Sequencing: `R` holds between the two programs. -/
theorem bind {R : β → σ → Prop} {m : EStateM ε σ β} {f : β → EStateM ε σ α}
    (hm : Triple P m R E) (hf : ∀ b, Triple (R b) (f b) Q E) : Triple P (m >>= f) Q E := by
  intro s hs
  have hfirst := hm s hs
  change match EStateM.bind m f s with
    | .ok a t => Q a t
    | .error _ t => E t
  unfold EStateM.bind
  cases hrun : m s with
  | ok b t =>
      rw [hrun] at hfirst
      exact hf b t hfirst
  | error e t =>
      rw [hrun] at hfirst
      exact hfirst

theorem get {Q : σ → σ → Prop} (h : ∀ s, P s → Q s s) :
    Triple P (MonadState.get : EStateM ε σ σ) Q E :=
  fun s hs => h s hs

theorem update {f : σ → σ} {Q : PUnit → σ → Prop} (h : ∀ s, P s → Q ⟨⟩ (f s)) :
    Triple P (modify f : EStateM ε σ PUnit) Q E :=
  fun s hs => h s hs

theorem consequence {P' : σ → Prop} {Q' : α → σ → Prop} {E' : σ → Prop} {m : EStateM ε σ α}
    (h : Triple P' m Q' E') (hpre : ∀ s, P s → P' s) (hpost : ∀ a s, Q' a s → Q a s)
    (herror : ∀ s, E' s → E s) : Triple P m Q E := by
  intro s hs
  have hrun := h s (hpre s hs)
  cases hm : m s with
  | ok a t =>
      rw [hm] at hrun
      exact hpost a t hrun
  | error e t =>
      rw [hm] at hrun
      exact herror t hrun

/-- A hypothesis about the state before may be a fact about the program. -/
theorem assume {p : Prop} {m : EStateM ε σ α} (h : p → Triple P m Q E) :
    Triple (fun s => p ∧ P s) m Q E :=
  fun s hs => h hs.1 s hs.2

/-- The state before may be named, so that what follows can be told by it. -/
theorem fix {m : EStateM ε σ α} (h : ∀ s, P s → Triple (· = s) m Q E) : Triple P m Q E :=
  fun s hs => h s hs s rfl

theorem ite {c : Prop} [Decidable c] {m n : EStateM ε σ α} (hm : c → Triple P m Q E)
    (hn : ¬ c → Triple P n Q E) : Triple P (if c then m else n) Q E := by
  split
  · exact hm ‹_›
  · exact hn ‹_›

/-- A program that reads no state and changes none keeps what holds of it. -/
theorem ofExcept {x : Except ε α} (h : ∀ a, x = .ok a → ∀ s, P s → Q a s)
    (herror : ∀ s, P s → E s) : Triple P (MonadExcept.ofExcept x : EStateM ε σ α) Q E := by
  intro s hs
  cases x with
  | ok a => exact h a rfl s hs
  | error e => exact herror s hs

/-- As `ofExcept`, where it matters which exception is thrown. -/
theorem ofExcept_cases {x : Except ε α} (h : ∀ a, x = .ok a → ∀ s, P s → Q a s)
    (herror : ∀ e, x = .error e → ∀ s, P s → E s) :
    Triple P (MonadExcept.ofExcept x : EStateM ε σ α) Q E := by
  intro s hs
  cases x with
  | ok a => exact h a rfl s hs
  | error e => exact herror e rfl s hs

/-- Sequencing after a program that reads no state. -/
theorem ofExcept_bind {x : Except ε β} {f : β → EStateM ε σ α}
    (h : ∀ b, x = .ok b → Triple P (f b) Q E) (herror : ∀ e, x = .error e → ∀ s, P s → E s) :
    Triple P (MonadExcept.ofExcept x >>= f) Q E :=
  bind (ofExcept_cases (fun _ hb _ hs => ⟨hb, hs⟩) herror) fun b => assume (h b)

end Triple

end Passkey.Library
