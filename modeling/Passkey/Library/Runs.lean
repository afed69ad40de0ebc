import Mathlib

/-!
Runs of an executable system. A system is a step function that gives the one
successor of a state under an event, or nothing where the event cannot happen.
Interleavings are sequences of events, so a fact about every run is a fact
about every order in which the parties may take their steps.

A run may be taken under a condition on the state before each step. The
condition `always` gives all runs; a proper condition describes the runs in
which some branch of the system is never entered.
-/

namespace Passkey.Library

variable {σ ε : Type*}

/-- The step function of a system. -/
abbrev Next (σ ε : Type*) := σ → ε → Option σ

/-- The condition that every step meets. -/
def always : σ → ε → Prop := fun _ _ => True

instance (s : σ) (e : ε) : Decidable (always s e) := .isTrue trivial

/-- `Reach next ok s t`: a finite run leads from `s` to `t` and each of its
steps meets `ok` in the state before it. -/
inductive Reach (next : Next σ ε) (ok : σ → ε → Prop) (s : σ) : σ → Prop where
  | refl : Reach next ok s s
  | tail {t u : σ} {e : ε} :
      Reach next ok s t → ok t e → next t e = some u → Reach next ok s u

namespace Reach

variable {next : Next σ ε} {ok : σ → ε → Prop} {s t : σ}

/-- A run under a condition is one under a weaker condition. -/
theorem mono {ok' : σ → ε → Prop} (h : Reach next ok s t) (hok : ∀ s e, ok s e → ok' s e) :
    Reach next ok' s t := by
  induction h with
  | refl => exact .refl
  | tail _ hstep hnext ih => exact .tail ih (hok _ _ hstep) hnext

/-- A run under a condition is a run. -/
theorem weaken (h : Reach next ok s t) : Reach next always s t :=
  h.mono fun _ _ _ => trivial

theorem trans {u : σ} (h : Reach next ok s t) (h' : Reach next ok t u) : Reach next ok s u := by
  induction h' with
  | refl => exact h
  | tail _ hok hstep ih => exact .tail ih hok hstep

/-- The invariant rule: what the start has and every step that meets the
condition keeps, every state of the run has. -/
theorem invariant {I : σ → Prop} (hinit : I s)
    (hstep : ∀ t e u, I t → ok t e → next t e = some u → I u)
    (h : Reach next ok s t) : I t := by
  induction h with
  | refl => exact hinit
  | tail _ hok hnext ih => exact hstep _ _ _ ih hok hnext

/-- The invariant rule relative to an invariant already known of all runs. -/
theorem invariant_with {K I : σ → Prop}
    (hknown : ∀ {t}, Reach next always s t → K t) (hinit : I s)
    (hstep : ∀ t e u, K t → I t → ok t e → next t e = some u → I u)
    (h : Reach next ok s t) : I t := by
  induction h with
  | refl => exact hinit
  | tail hrun hok hnext ih => exact hstep _ _ _ (hknown hrun.weaken) ih hok hnext

end Reach

/-! ### Runs with a record beside them -/

section Watch

variable {γ : Type*}

/-- The system with a record of its run that it does not look at. -/
def watch (next : Next σ ε) (observe : σ → ε → σ → γ → γ) : Next (σ × γ) ε := fun x e =>
  (next x.1 e).map fun t => (t, observe x.1 e t x.2)

variable {next : Next σ ε} {observe : σ → ε → σ → γ → γ}

theorem watch_eq {x y : σ × γ} {e : ε} (h : watch next observe x e = some y) :
    next x.1 e = some y.1 ∧ y.2 = observe x.1 e y.1 x.2 := by
  obtain ⟨t, hnext, rfl⟩ := Option.map_eq_some_iff.mp h
  exact ⟨hnext, rfl⟩

end Watch

/-- Execute a list of events, checking the condition before each step. -/
def replay (next : Next σ ε) (ok : σ → ε → Prop) [∀ s e, Decidable (ok s e)] :
    σ → List ε → Option σ
  | s, [] => some s
  | s, e :: rest =>
      if ok s e then (next s e).bind (fun t => replay next ok t rest) else none

theorem reach_of_replay_from {next : Next σ ε} {ok : σ → ε → Prop} [∀ s e, Decidable (ok s e)]
    {start s t : σ} {events : List ε} (hrun : Reach next ok start s)
    (h : replay next ok s events = some t) : Reach next ok start t := by
  induction events generalizing s with
  | nil =>
      simp only [replay, Option.some.injEq] at h
      exact h ▸ hrun
  | cons e rest ih =>
      simp only [replay] at h
      split at h
      · rename_i hok
        obtain ⟨u, hnext, htail⟩ := Option.bind_eq_some_iff.mp h
        exact ih (hrun.tail hok hnext) htail
      · cases h

/-- A successful replay is a run under the condition it checked. -/
theorem reach_of_replay {next : Next σ ε} {ok : σ → ε → Prop} [∀ s e, Decidable (ok s e)]
    {s t : σ} {events : List ε} (h : replay next ok s events = some t) : Reach next ok s t :=
  reach_of_replay_from .refl h

/-- A successful replay whose events all meet a condition, whatever the state
before them, is a run under it. -/
theorem reach_of_replay_of_forall {next : Next σ ε} {ok : σ → ε → Prop} {s t : σ}
    {events : List ε} (hok : ∀ s, ∀ e ∈ events, ok s e)
    (h : replay next always s events = some t) : Reach next ok s t := by
  suffices ∀ start, Reach next ok start s → Reach next ok start t from this s .refl
  intro start hrun
  induction events generalizing s with
  | nil =>
      simp only [replay, Option.some.injEq] at h
      exact h ▸ hrun
  | cons e rest ih =>
      simp only [replay] at h
      obtain ⟨u, hnext, htail⟩ := Option.bind_eq_some_iff.mp h
      exact ih (fun s e he => hok s e (List.mem_cons_of_mem _ he)) htail
        (hrun.tail (hok s e List.mem_cons_self) hnext)

end Passkey.Library
