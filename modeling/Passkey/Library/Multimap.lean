import Mathlib

/-!
Ordered maps from keys to lists of values. A key stands where it was first
given a value, its values are in the order they were given, and a key without
values is not in the map.
-/

namespace Passkey.Library

variable {κ β : Type*}

abbrev Multimap (κ β : Type*) := List (κ × List β)

namespace Multimap

/-- No key twice, and none without values. -/
structure Proper (m : Multimap κ β) : Prop where
  nodup : (m.map Prod.fst).Nodup
  values : ∀ entry ∈ m, entry.2 ≠ []

theorem Proper.nil : Proper ([] : Multimap κ β) :=
  ⟨List.nodup_nil, by simp⟩

theorem Proper.tail {entry : κ × List β} {m : Multimap κ β} (h : Proper (entry :: m)) :
    Proper m :=
  ⟨(List.nodup_cons.mp h.nodup).2, fun e he => h.values e (List.mem_cons_of_mem _ he)⟩

theorem Proper.notMem {entry : κ × List β} {m : Multimap κ β} (h : Proper (entry :: m)) :
    entry.1 ∉ m.map Prod.fst :=
  (List.nodup_cons.mp h.nodup).1

variable [DecidableEq κ]

/-- The values of a key, oldest first. -/
def values (k : κ) : Multimap κ β → List β
  | [] => []
  | entry :: rest => if entry.1 = k then entry.2 else values k rest

/-- Give a key one more value. -/
def add (k : κ) (v : β) : Multimap κ β → Multimap κ β
  | [] => [(k, [v])]
  | entry :: rest =>
      if entry.1 = k then (entry.1, entry.2 ++ [v]) :: rest else entry :: add k v rest

/-- Keep those values of a key that pass a test. -/
def keep (k : κ) (p : β → Bool) : Multimap κ β → Multimap κ β
  | [] => []
  | entry :: rest =>
      if entry.1 = k then
        if entry.2.filter p = [] then keep k p rest
        else (entry.1, entry.2.filter p) :: keep k p rest
      else entry :: keep k p rest

variable {m : Multimap κ β} {k : κ}

theorem values_of_notMem (h : k ∉ m.map Prod.fst) : values k m = [] := by
  induction m with
  | nil => rfl
  | cons entry rest ih =>
      obtain ⟨hne, hrest⟩ := not_or.mp (mt List.mem_cons.mpr h)
      rw [values, if_neg (Ne.symm hne)]
      exact ih hrest

theorem values_add (k' : κ) (v : β) :
    values k' (add k v m) = if k' = k then values k' m ++ [v] else values k' m := by
  induction m with
  | nil => by_cases hk : k = k' <;> simp [add, values, hk, eq_comm]
  | cons entry rest ih =>
      rw [add]
      split
      · rename_i hk
        by_cases hk' : k' = k
        · simp [values, hk, hk']
        · simp [values, hk, hk', Ne.symm hk']
      · rename_i hk
        simp only [values]
        split
        · rename_i hk'
          rw [if_neg (hk' ▸ hk)]
        · exact ih

theorem keys_add {v : β} {x : κ} :
    x ∈ (add k v m).map Prod.fst ↔ x = k ∨ x ∈ m.map Prod.fst := by
  induction m with
  | nil => simp [add]
  | cons entry rest ih =>
      rw [add]
      split
      · rename_i hk
        simp [hk]
      · rw [List.map_cons, List.mem_cons, ih, List.map_cons, List.mem_cons]
        tauto

theorem Proper.add {v : β} (h : Proper m) : Proper (add k v m) := by
  induction m with
  | nil => exact ⟨by simp [Multimap.add], by simp [Multimap.add]⟩
  | cons entry rest ih =>
      rw [Multimap.add]
      split
      · refine ⟨h.nodup, fun e he => ?_⟩
        rcases List.mem_cons.mp he with rfl | he
        · simp
        · exact h.values e (List.mem_cons_of_mem _ he)
      · rename_i hk
        have hrest := ih h.tail
        refine ⟨List.nodup_cons.mpr ⟨?_, hrest.nodup⟩, fun e he => ?_⟩
        · rw [keys_add]
          exact not_or.mpr ⟨hk, h.notMem⟩
        · rcases List.mem_cons.mp he with rfl | he
          · exact h.values e List.mem_cons_self
          · exact hrest.values e he

theorem keys_keep {p : β → Bool} {x : κ} (h : x ∈ (keep k p m).map Prod.fst) :
    x ∈ m.map Prod.fst := by
  induction m with
  | nil => exact h
  | cons entry rest ih =>
      rw [keep] at h
      split at h
      · split at h
        · exact List.mem_cons_of_mem _ (ih h)
        · exact (List.mem_cons.mp h).elim (· ▸ List.mem_cons_self)
            fun h => List.mem_cons_of_mem _ (ih h)
      · exact (List.mem_cons.mp h).elim (· ▸ List.mem_cons_self)
          fun h => List.mem_cons_of_mem _ (ih h)

theorem Proper.keep {p : β → Bool} (h : Proper m) : Proper (keep k p m) := by
  induction m with
  | nil => exact .nil
  | cons entry rest ih =>
      have hrest := ih h.tail
      have hnot : entry.1 ∉ (Multimap.keep k p rest).map Prod.fst :=
        fun hmem => h.notMem (keys_keep hmem)
      rw [Multimap.keep]
      split
      · split
        · exact hrest
        · rename_i hne
          refine ⟨List.nodup_cons.mpr ⟨hnot, hrest.nodup⟩, fun e he => ?_⟩
          rcases List.mem_cons.mp he with rfl | he
          · exact hne
          · exact hrest.values e he
      · refine ⟨List.nodup_cons.mpr ⟨hnot, hrest.nodup⟩, fun e he => ?_⟩
        rcases List.mem_cons.mp he with rfl | he
        · exact h.values e List.mem_cons_self
        · exact hrest.values e he

theorem values_keep {p : β → Bool} (h : Proper m) (k' : κ) :
    values k' (keep k p m) = if k' = k then (values k' m).filter p else values k' m := by
  induction m with
  | nil => simp [keep, values]
  | cons entry rest ih =>
      have hrest := ih h.tail
      rw [keep]
      by_cases hk : entry.1 = k
      · rw [if_pos hk]
        by_cases hk' : k' = k
        · subst hk'
          have hvalues : values k' (keep k' p rest) = [] := by
            rw [hrest, if_pos rfl, values_of_notMem (hk ▸ h.notMem)]
            rfl
          split
          · rename_i hnone
            simp [hvalues, values, hk, hnone]
          · simp [values, hk]
        · split <;> simp [values, hk, Ne.symm hk', hrest, hk']
      · rw [if_neg hk, values, values, hrest]
        by_cases hk' : entry.1 = k'
        · rw [if_pos hk', if_pos hk', if_neg (hk' ▸ hk)]
        · rw [if_neg hk', if_neg hk']

end Multimap

end Passkey.Library
