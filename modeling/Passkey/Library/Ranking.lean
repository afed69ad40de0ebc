import Mathlib

/-!
Stable sorting by a key. Two elements with the same key stay in the order they
were in, so what is sorted is ordered by the key first and by the place in the
list after that.
-/

namespace Passkey.Library

variable {α κ : Type*} [DecidableEq α]

/-- What a filter keeps stays in order. -/
theorem idxOf_filter_lt_iff {p : α → Bool} {a b : α} (ha : p a = true) (hb : p b = true)
    (l : List α) : (l.filter p).idxOf a < (l.filter p).idxOf b ↔ l.idxOf a < l.idxOf b := by
  induction l with
  | nil => simp
  | cons x rest ih =>
      by_cases hx : p x = true
      · rw [List.filter_cons_of_pos hx]
        by_cases hxa : x = a
        · subst hxa
          by_cases hxb : x = b
          · subst hxb
            simp
          · rw [List.idxOf_cons_self, List.idxOf_cons_self, List.idxOf_cons_ne _ hxb,
              List.idxOf_cons_ne _ hxb]
            simp
        · by_cases hxb : x = b
          · subst hxb
            rw [List.idxOf_cons_self, List.idxOf_cons_self]
            simp
          · rw [List.idxOf_cons_ne _ hxa, List.idxOf_cons_ne _ hxa, List.idxOf_cons_ne _ hxb,
              List.idxOf_cons_ne _ hxb]
            omega
      · have hxa : x ≠ a := fun heq => hx (heq ▸ ha)
        have hxb : x ≠ b := fun heq => hx (heq ▸ hb)
        rw [List.filter_cons_of_neg hx, ih, List.idxOf_cons_ne _ hxa, List.idxOf_cons_ne _ hxb]
        omega

section Keys

variable [LinearOrder κ] (key : α → κ)

/-- A smaller key, or the same key and an earlier place in the list. -/
def Before (l : List α) (a b : α) : Prop :=
  key a < key b ∨ key a = key b ∧ l.idxOf a < l.idxOf b

/-- A filter does not change who comes before whom. -/
theorem before_filter {p : α → Bool} {a b : α} (ha : p a = true) (hb : p b = true) (l : List α) :
    Before key (l.filter p) a b ↔ Before key l a b := by
  rw [Before, Before, idxOf_filter_lt_iff ha hb]

omit [DecidableEq α] in
/-- The elements with one key are sorted as they stood. -/
theorem filter_insertionSort (l : List α) (k : κ) :
    (l.insertionSort fun a b => key a ≤ key b).filter (fun a => key a = k) =
      l.filter fun a => key a = k := by
  have hequal : (l.filter fun a => key a = k).Pairwise fun a b => key a ≤ key b := by
    apply List.Pairwise.imp_of_mem _ (List.pairwise_of_forall fun _ _ => trivial)
    intro a b ha hb _
    have hka := of_decide_eq_true (List.mem_filter.mp ha).2
    have hkb := of_decide_eq_true (List.mem_filter.mp hb).2
    exact le_of_eq (hka.trans hkb.symm)
  have hsub := (List.sublist_insertionSort hequal List.filter_sublist).filter fun a => key a = k
  rw [List.filter_filter] at hsub
  simp only [Bool.and_self] at hsub
  have hlength := ((List.perm_insertionSort (fun a b => key a ≤ key b) l).filter
    fun a => key a = k).length_eq
  exact (hsub.eq_of_length hlength.symm).symm

/-- Of two elements the first in the sorted list comes before the other. -/
theorem before_of_sorted {l : List α} {a b : α} (ha : a ∈ l) (hb : b ∈ l)
    (h : (l.insertionSort fun a b => key a ≤ key b).idxOf a <
      (l.insertionSort fun a b => key a ≤ key b).idxOf b) : Before key l a b := by
  have hsorted := List.pairwise_iff_getElem.mp
    (List.pairwise_insertionSort (fun a b => key a ≤ key b) l)
  have hla := List.idxOf_lt_length_of_mem ((List.mem_insertionSort fun a b => key a ≤ key b).mpr ha)
  have hlb := List.idxOf_lt_length_of_mem ((List.mem_insertionSort fun a b => key a ≤ key b).mpr hb)
  have hle := hsorted _ _ hla hlb h
  rw [List.getElem_idxOf, List.getElem_idxOf] at hle
  rcases lt_or_eq_of_le hle with hlt | heq
  · exact .inl hlt
  · refine .inr ⟨heq, ?_⟩
    have hpa : decide (key a = key b) = true := decide_eq_true heq
    have hpb : decide (key b = key b) = true := decide_eq_true rfl
    rw [← idxOf_filter_lt_iff (p := fun x => decide (key x = key b)) hpa hpb] at h ⊢
    rw [filter_insertionSort] at h
    exact h

end Keys

end Passkey.Library
