import Passkey.Library.Runs

/-!
Runs of one system seen as runs of another. A step of the concrete system is a
run of the abstract one, often a single step or none at all, so what a
concrete run looks like from outside is an abstract run. Where states are
related but do not determine each other, one system follows the other.
-/

namespace Passkey.Library

variable {σ τ υ ε δ ζ : Type*} {next : Next σ ε} {next' : Next τ δ} {next'' : Next υ ζ}

namespace Reach

variable {ok : σ → ε → Prop} {ok' : τ → δ → Prop} {s t : σ}

/-- The run of one step. -/
theorem step {e : ε} (hok : ok s e) (h : next s e = some t) : Reach next ok s t :=
  .tail .refl hok h

/-- The refinement rule. -/
theorem refines {f : σ → τ}
    (hstep : ∀ t e u, ok t e → next t e = some u → Reach next' ok' (f t) (f u))
    (h : Reach next ok s t) : Reach next' ok' (f s) (f t) := by
  induction h with
  | refl => exact .refl
  | tail _ hok hnext ih => exact ih.trans (hstep _ _ _ hok hnext)

end Reach

/-! ### Simulations -/

/-- From related states, a step of the first system is followed by a run of the
second one to a related state. -/
def Follows (R : σ → τ → Prop) (next : Next σ ε) (ok : σ → ε → Prop) (next' : Next τ δ)
    (ok' : τ → δ → Prop) : Prop :=
  ∀ s e t x, R s x → ok s e → next s e = some t → ∃ y, Reach next' ok' x y ∧ R t y

namespace Follows

variable {R : σ → τ → Prop} {S : τ → υ → Prop} {ok : σ → ε → Prop} {ok' : τ → δ → Prop}
  {ok'' : υ → ζ → Prop}

/-- The simulation rule. -/
theorem run (h : Follows R next ok next' ok') {s t : σ} {x : τ} (hrel : R s x)
    (hrun : Reach next ok s t) : ∃ y, Reach next' ok' x y ∧ R t y := by
  induction hrun with
  | refl => exact ⟨x, .refl, hrel⟩
  | tail _ hok hnext ih =>
      obtain ⟨y, hy, hrel'⟩ := ih
      obtain ⟨z, hz, hrel''⟩ := h _ _ _ _ hrel' hok hnext
      exact ⟨z, hy.trans hz, hrel''⟩

theorem comp (h : Follows R next ok next' ok') (h' : Follows S next' ok' next'' ok'') :
    Follows (Relation.Comp R S) next ok next'' ok'' := by
  rintro s e t z ⟨x, hx, hz⟩ hok hnext
  obtain ⟨y, hrun, hy⟩ := h s e t x hx hok hnext
  obtain ⟨w, hrun', hw⟩ := h'.run hz hrun
  exact ⟨w, hrun', y, hy, hw⟩

end Follows

end Passkey.Library
