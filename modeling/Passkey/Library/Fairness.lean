import Passkey.Library.Runs

/-!
Runs that never end, and what fairness makes of them. A schedule is fair to a
set of events when it does not pass them over for ever: weakly where they stay
possible from some moment on, strongly where they are possible again and again.
Either way a goal is reached once every event of the set brings the state
nearer to it and no other event takes it further away.
-/

namespace Passkey.Library

variable {σ ε : Type*}

/-- A run without an end. -/
structure Endless (next : Next σ ε) where
  state : ℕ → σ
  event : ℕ → ε
  step : ∀ i, next (state i) (event i) = some (state (i + 1))

/-- One of the events can happen. -/
def Enabled (next : Next σ ε) (events : Set ε) (s : σ) : Prop :=
  ∃ e ∈ events, (next s e).isSome

namespace Endless

variable {next : Next σ ε}

def WeaklyFair (run : Endless next) (events : Set ε) : Prop :=
  ∀ i, (∀ j ≥ i, Enabled next events (run.state j)) → ∃ j ≥ i, run.event j ∈ events

def StronglyFair (run : Endless next) (events : Set ε) : Prop :=
  ∀ i, (∀ j ≥ i, ∃ k ≥ j, Enabled next events (run.state k)) → ∃ j ≥ i, run.event j ∈ events

/-- A step, and then the run. -/
def cons (run : Endless next) {s : σ} {e : ε} (h : next s e = some (run.state 0)) :
    Endless next where
  state
    | 0 => s
    | i + 1 => run.state i
  event
    | 0 => e
    | i + 1 => run.event i
  step
    | 0 => h
    | i + 1 => run.step i

/-- Events that can be executed, and then the run. -/
theorem exists_after {ok : σ → ε → Prop} [∀ s e, Decidable (ok s e)] {s : σ} {events : List ε}
    (run : Endless next) (h : replay next ok s events = some (run.state 0)) :
    ∃ whole : Endless next, whole.state 0 = s ∧
      ∀ i, whole.state (events.length + i) = run.state i := by
  induction events generalizing s with
  | nil =>
      have hs : s = run.state 0 := by simpa [replay] using h
      exact ⟨run, hs.symm, fun i => by simp⟩
  | cons e rest ih =>
      simp only [replay] at h
      split at h
      · obtain ⟨t, hnext, hrest⟩ := Option.bind_eq_some_iff.mp h
        obtain ⟨whole, hstart, hwhole⟩ := ih hrest
        refine ⟨whole.cons (hstart ▸ hnext), rfl, fun i => ?_⟩
        have hindex : (e :: rest).length + i = rest.length + i + 1 := by
          rw [List.length_cons]
          omega
        rw [hindex]
        exact hwhole i
      · cases h

variable {run : Endless next}

theorem reach (run : Endless next) {i j : ℕ} (h : i ≤ j) :
    Reach next always (run.state i) (run.state j) := by
  induction h with
  | refl => exact .refl
  | step _ ih => exact ih.tail trivial (run.step _)

/-- What every step keeps holds from then on. -/
theorem stays {P : σ → Prop} (hstep : ∀ s e t, P s → next s e = some t → P t) {i j : ℕ}
    (h : i ≤ j) (hi : P (run.state i)) : P (run.state j) :=
  (run.reach h).invariant hi fun _ _ _ hs _ hnext => hstep _ _ _ hs hnext

/-- A value that no step lowers, and that reaches every bound, stays beyond it. -/
theorem beyond {f : σ → ℕ} (hstep : ∀ s e t, next s e = some t → f s ≤ f t)
    (hunbounded : ∀ n, ∃ i, n ≤ f (run.state i)) (n i : ℕ) :
    ∃ j ≥ i, ∀ k ≥ j, n ≤ f (run.state k) := by
  obtain ⟨m, hm⟩ := hunbounded n
  refine ⟨max i m, Nat.le_max_left i m, fun k hk => ?_⟩
  exact stays (P := fun s => n ≤ f s) (fun s e t hs hnext => hs.trans (hstep s e t hnext))
    ((Nat.le_max_right i m).trans hk) hm

section Descent

variable {α : Type*} [Preorder α] {ok : σ → ε → Prop} {events : Set ε} {good goal : σ → Prop}
  {rank : σ → α}

/-- What a step that meets the condition does on the way to a goal: it may
reach it, and otherwise it keeps the way open and takes the state no further
from it, and nearer where it is one of the events. -/
def Approaches (next : Next σ ε) (ok : σ → ε → Prop) (events : Set ε) (good goal : σ → Prop)
    (rank : σ → α) : Prop :=
  ∀ s e t, good s → ¬ goal s → ok s e → next s e = some t →
    goal t ∨ (good t ∧ rank t ≤ rank s ∧ (e ∈ events → rank t < rank s))

/-- Short of the goal the way stays open. -/
theorem Approaches.on_the_way (h : Approaches next ok events good goal rank) {i : ℕ}
    (hok : ∀ j ≥ i, ok (run.state j) (run.event j)) (hgood : good (run.state i))
    (hnever : ∀ j ≥ i, ¬ goal (run.state j)) {j : ℕ} (hij : i ≤ j) :
    good (run.state j) ∧ rank (run.state j) ≤ rank (run.state i) := by
  induction j, hij using Nat.le_induction with
  | base => exact ⟨hgood, le_rfl⟩
  | succ j hij ih =>
      rcases h _ _ _ ih.1 (hnever j hij) (hok j hij) (run.step j) with hgoal | ⟨hnext, hle, -⟩
      · exact absurd hgoal (hnever (j + 1) (by omega))
      · exact ⟨hnext, hle.trans ih.2⟩

variable [WellFoundedLT α]

/-- The descent rule. -/
theorem Approaches.eventually (h : Approaches next ok events good goal rank) {i : ℕ}
    (hok : ∀ j ≥ i, ok (run.state j) (run.event j)) (hgood : good (run.state i))
    (hrecur : (∀ j ≥ i, good (run.state j) ∧ ¬ goal (run.state j)) →
      ∀ j ≥ i, ∃ k ≥ j, run.event k ∈ events) :
    ∃ j ≥ i, goal (run.state j) := by
  by_contra hnone
  have hnever : ∀ j ≥ i, ¬ goal (run.state j) := fun j hij hgoal => hnone ⟨j, hij, hgoal⟩
  have hway : ∀ j ≥ i, good (run.state j) ∧ ¬ goal (run.state j) := fun j hij =>
    ⟨(h.on_the_way hok hgood hnever hij).1, hnever j hij⟩
  -- The rank falls for ever.
  have hfalls : ∀ a : α, ∀ j ≥ i, rank (run.state j) = a → False := by
    intro a
    induction a using WellFoundedLT.induction with
    | ind a ih =>
        intro j hij ha
        obtain ⟨k, hjk, hevent⟩ := hrecur hway j hij
        have hik : i ≤ k := hij.trans hjk
        have hle := (h.on_the_way (fun m hm => hok m (hij.trans hm)) (hway j hij).1
          (fun m hm => hnever m (hij.trans hm)) hjk).2
        rcases h _ _ _ (hway k hik).1 (hnever k hik) (hok k hik) (run.step k) with
          hgoal | ⟨-, -, hless⟩
        · exact hnever (k + 1) (by omega) hgoal
        · exact ih _ (ha ▸ (hless hevent).trans_le hle) (k + 1) (by omega) rfl
  exact hfalls _ i le_rfl rfl

/-- Weak fairness is enough where the events stay possible up to the goal. -/
theorem WeaklyFair.eventually (hfair : run.WeaklyFair events)
    (h : Approaches next ok events good goal rank)
    (henabled : ∀ s, good s → ¬ goal s → Enabled next events s) {i : ℕ}
    (hok : ∀ j ≥ i, ok (run.state j) (run.event j)) (hgood : good (run.state i)) :
    ∃ j ≥ i, goal (run.state j) := by
  apply h.eventually hok hgood
  intro hway j hij
  exact hfair j fun k hjk => henabled _ (hway k (hij.trans hjk)).1 (hway k (hij.trans hjk)).2

/-- Strong fairness is enough where they become possible again and again. -/
theorem StronglyFair.eventually (hfair : run.StronglyFair events)
    (h : Approaches next ok events good goal rank) {i : ℕ}
    (henabled : ∀ j ≥ i, good (run.state j) → ¬ goal (run.state j) →
      ∃ k ≥ j, goal (run.state k) ∨ Enabled next events (run.state k))
    (hok : ∀ j ≥ i, ok (run.state j) (run.event j)) (hgood : good (run.state i)) :
    ∃ j ≥ i, goal (run.state j) := by
  apply h.eventually hok hgood
  intro hway j hij
  apply hfair j
  intro k hjk
  have hik : i ≤ k := hij.trans hjk
  obtain ⟨m, hkm, hgoal | hpossible⟩ := henabled k hik (hway k hik).1 (hway k hik).2
  · exact absurd hgoal (hway m (hik.trans hkm)).2
  · exact ⟨m, hkm, hpossible⟩

end Descent

end Endless

/-! ### Runs that come to a stop -/

/-- The system in which it may also happen that nothing does, so that a run that
comes to a stop is one that goes on like this for ever. -/
def idling (next : Next σ ε) : Next σ (Option ε) := fun s e =>
  match e with
  | none => some s
  | some e => next s e

section Idling

variable {next : Next σ ε} {s t : σ}

theorem reach_of_idling {ok : σ → Option ε → Prop} (h : Reach (idling next) ok s t) :
    Reach next always s t := by
  induction h with
  | refl => exact .refl
  | @tail t u e _ _ hnext ih =>
      cases e with
      | none =>
          cases hnext
          exact ih
      | some e => exact ih.tail trivial hnext

theorem replay_idling (events : List ε) :
    replay (idling next) always s (events.map some) = replay next always s events := by
  induction events generalizing s with
  | nil => rfl
  | cons e rest ih =>
      simp only [List.map_cons, replay, idling, ih]
      rfl

/-- Nothing happens any more. -/
def stopped (next : Next σ ε) (s : σ) : Endless (idling next) where
  state _ := s
  event _ := none
  step _ := rfl

theorem enabled_idling {events : Set ε} :
    Enabled (idling next) {e | ∃ a ∈ events, e = some a} s ↔ Enabled next events s := by
  constructor
  · rintro ⟨_, ⟨a, ha, rfl⟩, hnext⟩
    exact ⟨a, ha, hnext⟩
  · rintro ⟨a, ha, hnext⟩
    exact ⟨some a, ⟨a, ha, rfl⟩, hnext⟩

/-- Where nothing happens, nothing gets further from the goal. -/
theorem Endless.Approaches.idling {α : Type*} [Preorder α] {ok : σ → ε → Prop} {events : Set ε}
    {good goal : σ → Prop} {rank : σ → α} (h : Approaches next ok events good goal rank) :
    Approaches (Library.idling next) (fun s e => ∀ a ∈ e, ok s a) {e | ∃ a ∈ events, e = some a}
      good goal rank := by
  intro s e t hgood hgoal hok hnext
  cases e with
  | none =>
      cases hnext
      refine .inr ⟨hgood, le_rfl, ?_⟩
      rintro ⟨a, -, hnone⟩
      cases hnone
  | some e =>
      refine (h s e t hgood hgoal (hok e rfl) hnext).imp_right ?_
      rintro ⟨hstill, hle, hless⟩
      refine ⟨hstill, hle, ?_⟩
      rintro ⟨a, ha, hsame⟩
      exact hless (Option.some.inj hsame ▸ ha)

end Idling

end Passkey.Library
