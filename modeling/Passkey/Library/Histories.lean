import Mathlib

/-!
Properties of a history that speak of each entry and of what came before it.
A history grows at its end, so such a property is kept by a step that keeps it
for the entries there are and has it for the new one.
-/

namespace Passkey.Library

variable {α : Type*}

/-- Each entry has the property, given the entries before it. -/
def Each (P : List α → α → Prop) (history : List α) : Prop :=
  ∀ before e after, history = before ++ e :: after → P before e

namespace Each

variable {P Q : List α → α → Prop} {history : List α}

theorem nil : Each P [] := by
  intro before e after hsplit
  simp at hsplit

theorem snoc {x : α} (h : Each P history) (hx : P history x) : Each P (history ++ [x]) := by
  intro before e after hsplit
  rcases List.eq_nil_or_concat after with rfl | ⟨rest, last, rfl⟩
  · obtain ⟨rfl, hlast⟩ := List.append_inj' hsplit rfl
    exact List.singleton_inj.mp hlast ▸ hx
  · have hsplit' : history ++ [x] = (before ++ e :: rest) ++ [last] := by
      simpa using hsplit
    exact h before e rest (List.append_inj' hsplit' rfl).1

/-- What an entry has because it is in the history may depend on the history. -/
theorem mono (h : Each P history) (hPQ : ∀ before e, e ∈ history → P before e → Q before e) :
    Each Q history := by
  intro before e after hsplit
  exact hPQ before e (by simp [hsplit]) (h before e after hsplit)

end Each

variable [DecidableEq α]

/-- What happened since the first `a`. -/
def since (a : α) : List α → List α
  | [] => []
  | x :: rest => if x = a then rest else since a rest

theorem mem_of_mem_since {a x : α} {history : List α} (h : x ∈ since a history) :
    x ∈ history := by
  induction history with
  | nil => exact h
  | cons y rest ih =>
      rw [since] at h
      split at h
      · exact List.mem_cons_of_mem y h
      · exact List.mem_cons_of_mem y (ih h)

theorem since_append {a : α} {history : List α} (more : List α) (h : a ∈ history) :
    since a (history ++ more) = since a history ++ more := by
  induction history with
  | nil => simp at h
  | cons x rest ih =>
      rw [List.cons_append, since, since]
      split
      · rfl
      · rename_i hx
        exact ih ((List.mem_cons.mp h).resolve_left (Ne.symm hx))

/-- Nothing happened since what never happened before. -/
theorem since_snoc {a : α} {history : List α} (x : α) (h : a ∉ history) :
    since a (history ++ [x]) = [] := by
  induction history with
  | nil =>
      rw [List.nil_append, since]
      split <;> rfl
  | cons y rest ih =>
      rw [List.mem_cons, not_or] at h
      rw [List.cons_append, since, if_neg (Ne.symm h.1)]
      exact ih h.2

/-- What happened since the first `a` comes after it. -/
theorem since_split {a x : α} {history mid newer : List α}
    (h : since a history = mid ++ x :: newer) :
    ∃ older, history = older ++ x :: newer ∧ a ∈ older := by
  induction history with
  | nil => simp [since] at h
  | cons y rest ih =>
      rw [since] at h
      split at h
      · rename_i hy
        exact ⟨y :: mid, congrArg (y :: ·) h, hy ▸ List.mem_cons_self⟩
      · obtain ⟨older, rfl, hmem⟩ := ih h
        exact ⟨y :: older, rfl, List.mem_cons_of_mem y hmem⟩

end Passkey.Library
