import Passkey.Library.Runs

/-!
Runs that can be completed. Where every state short of a goal has a step that
brings it nearer, by a measure, the goal can be reached from all of them: the
system is not stuck, whatever happened before.
-/

namespace Passkey.Library

variable {σ ε : Type*} {next : Next σ ε} {ok : σ → ε → Prop}

namespace Reach

/-- The progress rule. A good step keeps what makes the next one possible. -/
theorem progress {good goal : σ → Prop} (measure : σ → ℕ)
    (hstep : ∀ s, good s → ¬ goal s →
      ∃ e t, ok s e ∧ next s e = some t ∧ good t ∧ measure t < measure s)
    {s : σ} (hs : good s) : ∃ t, Reach next ok s t ∧ good t ∧ goal t := by
  obtain ⟨n, hn⟩ : ∃ n, measure s < n := ⟨_, Nat.lt_succ_self _⟩
  induction n generalizing s with
  | zero => exact absurd hn (Nat.not_lt_zero _)
  | succ n ih =>
      by_cases hgoal : goal s
      · exact ⟨s, .refl, hs, hgoal⟩
      · obtain ⟨e, t, hok, hnext, ht, hless⟩ := hstep s hs hgoal
        obtain ⟨u, hrun, hu⟩ := ih ht (by omega)
        exact ⟨u, (Reach.tail .refl hok hnext).trans hrun, hu⟩

end Reach

end Passkey.Library
