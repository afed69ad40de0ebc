import Passkey.Library.Runs

/-!
Two programs that edit the same two cells without a lock. Each reads one cell
and then the other, works out what both are to be, and writes the one and then
the other. Every read and every write is a step of its own, so the programs may
interleave in any order.
-/

namespace Passkey.Library.Edits

variable {α β ε : Type*}

/-- What both cells are to be, from what they were, or an error. -/
abbrev Edit (α β ε : Type*) := α → β → Except ε (α × β)

/-- How far a program is. -/
inductive Progress (α β : Type*) where
  | ready
  | readOne (a : α)
  | readBoth (a : α) (b : β)
  /-- It has written the first cell; this is for the second. -/
  | wroteOne (b : β)
  | ended
  deriving DecidableEq

/-- The two programs are told apart by a Boolean. -/
structure State (α β : Type*) where
  cells : α × β
  progress : Bool → Progress α β

def start (cells : α × β) : State α β where
  cells := cells
  progress := fun _ => .ready

/-- A step of a program; one whose edit fails ends without a write. -/
def turn (edit : Edit α β ε) (cells : α × β) : Progress α β → Option (Progress α β × (α × β))
  | .ready => some (.readOne cells.1, cells)
  | .readOne a => some (.readBoth a cells.2, cells)
  | .readBoth a b =>
      match edit a b with
      | .ok edited => some (.wroteOne edited.2, (edited.1, cells.2))
      | .error _ => some (.ended, cells)
  | .wroteOne b => some (.ended, (cells.1, b))
  | .ended => none

def next (edits : Bool → Edit α β ε) : Next (State α β) Bool := fun s p =>
  (turn (edits p) s.cells (s.progress p)).map fun x =>
    ⟨x.2, Function.update s.progress p x.1⟩

/-- Both cells after the program ran alone. -/
def Edit.after (edit : Edit α β ε) (cells : α × β) : α × β :=
  match edit cells.1 cells.2 with
  | .ok edited => edited
  | .error _ => cells

/-- The program read the first cell and has not written it. -/
def Progress.editsFirst : Progress α β → Bool
  | .readOne _ | .readBoth .. => true
  | _ => false

def Progress.editsSecond : Progress α β → Bool
  | .readBoth .. | .wroteOne _ => true
  | _ => false

/-- No program reads a cell that the other has read and is yet to write. -/
def Apart (s : State α β) (p : Bool) : Prop :=
  match s.progress p with
  | .ready => (s.progress !p).editsFirst = false
  | .readOne _ => (s.progress !p).editsSecond = false
  | _ => True

instance (s : State α β) (p : Bool) : Decidable (Apart s p) := by
  unfold Apart
  split <;> infer_instance

/-- A program that ran alone from `before` is here, and the cells are these. -/
def Follows (edit : Edit α β ε) (before : α × β) : Progress α β → α × β → Prop
  | .ready, cells => cells = before
  | .readOne a, cells => cells = before ∧ a = before.1
  | .readBoth a b, cells => cells = before ∧ (a, b) = before
  | .wroteOne b, cells => ∃ a, edit before.1 before.2 = .ok (a, b) ∧ cells = (a, before.2)
  | .ended, cells => cells = edit.after before

theorem Follows.turn {edit : Edit α β ε} {before cells cells' : α × β} {x x' : Progress α β}
    (h : Follows edit before x cells) (hturn : turn edit cells x = some (x', cells')) :
    Follows edit before x' cells' := by
  cases x with
  | ready =>
      cases hturn
      exact ⟨h, congrArg Prod.fst h⟩
  | readOne a =>
      obtain ⟨rfl, rfl⟩ := h
      cases hturn
      exact ⟨rfl, rfl⟩
  | readBoth a b =>
      obtain ⟨rfl, rfl⟩ := h
      simp only [Edits.turn] at hturn
      split at hturn
      · rename_i edited hedit
        cases hturn
        exact ⟨edited.1, hedit, rfl⟩
      · rename_i hfails
        cases hturn
        simp [Follows, Edit.after, hfails]
  | wroteOne b =>
      obtain ⟨a, hedit, rfl⟩ := h
      cases hturn
      simp [Follows, Edit.after, hedit]
  | ended => cases hturn

/-- The program `p` goes first: the other starts on what it leaves, but for a
look at the first cell after that was written. -/
def InOrder (edits : Bool → Edit α β ε) (before : α × β) (p : Bool) (s : State α β) : Prop :=
  match s.progress p with
  | .ended => Follows (edits !p) ((edits p).after before) (s.progress !p) s.cells
  | .wroteOne b =>
      Follows (edits p) before (.wroteOne b) s.cells ∧
        (s.progress (!p) = .ready ∨ s.progress (!p) = .readOne s.cells.1)
  | x => Follows (edits p) before x s.cells ∧ s.progress (!p) = .ready

section Order

variable {edits : Bool → Edit α β ε} {before : α × β} {p : Bool} {s t : State α β}

theorem next_eq {q : Bool} (h : next edits s q = some t) :
    ∃ x cells, turn (edits q) s.cells (s.progress q) = some (x, cells) ∧ t.cells = cells ∧
      t.progress q = x ∧ t.progress (!q) = s.progress !q := by
  obtain ⟨⟨x, cells⟩, hturn, rfl⟩ := Option.map_eq_some_iff.mp h
  exact ⟨x, cells, hturn, rfl, Function.update_self .., Function.update_of_ne (by simp) ..⟩

/-- The program that goes first takes a step. -/
theorem InOrder.own (h : InOrder edits before p s) (hnext : next edits s p = some t) :
    InOrder edits before p t := by
  obtain ⟨x, cells, hturn, hcells, hown, hother⟩ := next_eq hnext
  unfold InOrder at h ⊢
  rw [hown, hother, hcells]
  cases hprogress : s.progress p with
  | ready | readOne =>
      rw [hprogress] at h hturn
      have hfollows := h.1.turn hturn
      cases hturn
      exact ⟨hfollows, h.2⟩
  | readBoth a b =>
      rw [hprogress] at h hturn
      have hfollows := h.1.turn hturn
      have hfree := h.2
      simp only [turn] at hturn
      split at hturn
      · cases hturn
        exact ⟨hfollows, .inl hfree⟩
      · cases hturn
        rw [hfree]
        exact hfollows
  | wroteOne b =>
      rw [hprogress] at h hturn
      have hafter := h.1.turn hturn
      obtain ⟨-, hfree⟩ := h
      cases hturn
      have hleft : (s.cells.1, b) = (edits p).after before := hafter
      have hfirst : s.cells.1 = ((edits p).after before).1 := by rw [← hleft]
      rcases hfree with hready | hread
      · rw [hready]
        exact hleft
      · rw [hread]
        exact ⟨hleft, hfirst⟩
  | ended =>
      rw [hprogress] at hturn
      cases hturn

/-- The other program takes a step; if neither had begun, it goes first. -/
theorem InOrder.other (h : InOrder edits before p s) (happart : Apart s !p)
    (hnext : next edits s (!p) = some t) :
    InOrder edits before p t ∨ InOrder edits before (!p) t := by
  obtain ⟨x, cells, hturn, hcells, hown, hother⟩ := next_eq hnext
  rw [Bool.not_not] at hother
  unfold InOrder at h
  unfold Apart at happart
  rw [Bool.not_not] at happart
  cases hprogress : s.progress p with
  | ready =>
      rw [hprogress] at h
      obtain ⟨hbefore, hfree⟩ := h
      rw [hfree] at hturn
      cases hturn
      refine .inr ?_
      unfold InOrder
      rw [hown, Bool.not_not, hother, hprogress, hcells]
      exact ⟨⟨hbefore, congrArg Prod.fst hbefore⟩, rfl⟩
  | readOne | readBoth =>
      rw [hprogress] at h
      rw [h.2, hprogress] at happart
      cases happart
  | wroteOne b =>
      rw [hprogress] at h
      obtain ⟨hfollows, hready | hread⟩ := h
      · rw [hready] at hturn
        cases hturn
        refine .inl ?_
        unfold InOrder
        rw [hother, hprogress, hown, hcells]
        exact ⟨hfollows, .inr rfl⟩
      · rw [hread, hprogress] at happart
        cases happart
  | ended =>
      rw [hprogress] at h
      refine .inl ?_
      unfold InOrder
      rw [hother, hprogress, hown, hcells]
      exact h.turn hturn

theorem InOrder.next {q : Bool} (h : InOrder edits before p s) (happart : Apart s q)
    (hnext : next edits s q = some t) :
    InOrder edits before p t ∨ InOrder edits before (!p) t := by
  by_cases hq : q = p
  · subst hq
    exact .inl (h.own hnext)
  · obtain rfl : q = !p := by cases q <;> cases p <;> simp_all
    exact h.other happart hnext

theorem InOrder.ended (h : InOrder edits before p s) (hp : s.progress p = .ended)
    (hother : s.progress (!p) = .ended) :
    s.cells = (edits !p).after ((edits p).after before) := by
  unfold InOrder at h
  rw [hp, hother] at h
  exact h

/-- Programs that keep apart have the effect of one after the other. -/
theorem serial (h : Reach (Edits.next edits) Apart (start before) s)
    (hended : ∀ q, s.progress q = .ended) :
    s.cells = (edits true).after ((edits false).after before) ∨
      s.cells = (edits false).after ((edits true).after before) := by
  have horder : ∃ p, InOrder edits before p s := by
    have hstart : InOrder edits before false (start before) := ⟨rfl, rfl⟩
    apply h.invariant (I := fun s => ∃ p, InOrder edits before p s) ⟨false, hstart⟩
    rintro t q u ⟨p, hp⟩ happart hnext
    rcases hp.next happart hnext with hsame | hnew
    · exact ⟨p, hsame⟩
    · exact ⟨!p, hnew⟩
  obtain ⟨p, hp⟩ := horder
  cases p with
  | false => exact .inl (hp.ended (hended false) (hended true))
  | true => exact .inr (hp.ended (hended true) (hended false))

end Order

end Passkey.Library.Edits
