import Passkey.Daemon.Targets
import Passkey.Library.Ranking

/-!
Which links a request goes to. Every device has one link that it is asked on,
the one that comes first by priority and then by age; the rounds of a request
name devices by these links, and none of them twice.
-/

namespace Passkey.Daemon

open Library

/-! ### One link for each device -/

section Firsts

variable {device : LinkId → Text} {seen : List Text} {links : List LinkId}

theorem firstOfDevice_subset : ∀ l ∈ firstOfDevice device seen links, l ∈ links := by
  induction links generalizing seen with
  | nil => simp [firstOfDevice]
  | cons a rest ih =>
      intro l hl
      unfold firstOfDevice at hl
      split at hl
      · exact List.mem_cons_of_mem _ (ih l hl)
      · rcases List.mem_cons.mp hl with rfl | hlater
        · exact List.mem_cons_self
        · exact List.mem_cons_of_mem _ (ih l hlater)

/-- No device is left out. -/
theorem firstOfDevice_complete {l : LinkId} (hl : l ∈ links) (hnew : device l ∉ seen) :
    ∃ k ∈ firstOfDevice device seen links, device k = device l := by
  induction links generalizing seen with
  | nil => cases hl
  | cons a rest ih =>
      unfold firstOfDevice
      split
      · rename_i hseen
        rcases List.mem_cons.mp hl with rfl | hlater
        · exact absurd hseen hnew
        · exact ih hlater hnew
      · by_cases hsame : device l = device a
        · exact ⟨a, List.mem_cons_self, hsame.symm⟩
        · rcases List.mem_cons.mp hl with rfl | hlater
          · exact absurd rfl hsame
          · have hnew' : device l ∉ device a :: seen := by
              intro hmem
              rcases List.mem_cons.mp hmem with heq | hmem
              · exact hsame heq
              · exact hnew hmem
            obtain ⟨k, hk, hdevice⟩ := ih hlater hnew'
            exact ⟨k, List.mem_cons_of_mem _ hk, hdevice⟩

/-- A link that is kept stands before the others of its device. -/
theorem firstOfDevice_first : ∀ k ∈ firstOfDevice device seen links, ∀ l ∈ links,
    device l = device k → l ≠ k → links.idxOf k < links.idxOf l := by
  induction links generalizing seen with
  | nil => simp [firstOfDevice]
  | cons a rest ih =>
      intro k hk l hl hdevice hne
      have hlater {seen' : List Text} (hk : k ∈ firstOfDevice device seen' rest)
          (ha : device k ≠ device a) : (a :: rest).idxOf k < (a :: rest).idxOf l := by
        have hka : a ≠ k := fun heq => ha (heq ▸ rfl)
        have hla : a ≠ l := fun heq => ha (heq ▸ hdevice.symm)
        rw [List.idxOf_cons_ne _ hka, List.idxOf_cons_ne _ hla]
        rcases List.mem_cons.mp hl with rfl | hl
        · exact absurd rfl hla
        · exact Nat.succ_lt_succ (ih k hk l hl hdevice hne)
      unfold firstOfDevice at hk
      split at hk
      · rename_i hseen
        apply hlater hk
        intro heq
        exact (firstOfDevice_nodup device seen rest).1 k hk (heq ▸ hseen)
      · rcases List.mem_cons.mp hk with rfl | hk
        · rw [List.idxOf_cons_self, List.idxOf_cons_ne _ (Ne.symm hne)]
          exact Nat.succ_pos _
        · apply hlater hk
          intro heq
          exact (firstOfDevice_nodup device (device a :: seen) rest).1 k hk
            (heq ▸ List.mem_cons_self)

/-- The links that are kept stand in the order they stood in. -/
theorem firstOfDevice_ordered : (firstOfDevice device seen links).Pairwise fun a b =>
    links.idxOf a < links.idxOf b := by
  induction links generalizing seen with
  | nil => exact List.Pairwise.nil
  | cons a rest ih =>
      have hrest {seen' : List Text} (hseen : device a ∈ seen') :
          (firstOfDevice device seen' rest).Pairwise fun x y =>
            (a :: rest).idxOf x < (a :: rest).idxOf y := by
        apply (@ih seen').imp_of_mem
        intro x y hx hy hlt
        have hne {z : LinkId} (hz : z ∈ firstOfDevice device seen' rest) : a ≠ z := by
          intro heq
          exact (firstOfDevice_nodup device seen' rest).1 z hz (heq ▸ hseen)
        rw [List.idxOf_cons_ne _ (hne hx), List.idxOf_cons_ne _ (hne hy)]
        exact Nat.succ_lt_succ hlt
      unfold firstOfDevice
      split
      · rename_i hseen
        exact hrest hseen
      · refine List.pairwise_cons.mpr ⟨?_, hrest List.mem_cons_self⟩
        intro z hz
        have hne : a ≠ z := by
          intro heq
          exact (firstOfDevice_nodup device (device a :: seen) rest).1 z hz
            (heq ▸ List.mem_cons_self)
        rw [List.idxOf_cons_self, List.idxOf_cons_ne _ hne]
        exact Nat.succ_pos _

end Firsts

/-- The priority of a link, as a number. -/
def State.rank (s : State) (l : LinkId) : Nat :=
  (s.link l).priority.toNat

/-- The one link that each device with a live link is asked on: the first by
priority, then by age. -/
structure OnePerDevice (s : State) : Prop where
  live : ∀ k ∈ s.byDevice, k ∈ s.links ∧ (s.link k).alive = true
  every : ∀ l ∈ s.links, (s.link l).alive = true →
    ∃! k, k ∈ s.byDevice ∧ (s.link k).device = (s.link l).device
  best : ∀ k ∈ s.byDevice, ∀ l ∈ s.links, (s.link l).alive = true →
    (s.link l).device = (s.link k).device → l ≠ k →
      Before s.rank s.links k l
  ordered : s.byDevice.Pairwise (Before s.rank s.links)

/-- The devices by their numbers. -/
theorem byDevice_rank (s : State) : s.byDevice = firstOfDevice (fun l => (s.link l).device) []
    (s.liveLinks.insertionSort fun a b => s.rank a ≤ s.rank b) := rfl

theorem onePerDevice (s : State) : OnePerDevice s := by
  have hmem {l : LinkId} : l ∈ s.liveLinks.insertionSort (fun a b => s.rank a ≤ s.rank b) ↔
      l ∈ s.links ∧ (s.link l).alive = true := by
    rw [List.mem_insertionSort]
    exact List.mem_filter
  have hbefore {a b : LinkId} (ha : a ∈ s.links ∧ (s.link a).alive = true)
      (hb : b ∈ s.links ∧ (s.link b).alive = true)
      (hlt : (s.liveLinks.insertionSort fun a b => s.rank a ≤ s.rank b).idxOf a <
        (s.liveLinks.insertionSort fun a b => s.rank a ≤ s.rank b).idxOf b) :
      Before s.rank s.links a b := by
    rw [← before_filter (p := fun l => (s.link l).alive) _ ha.2 hb.2]
    exact before_of_sorted _ (List.mem_filter.mpr ha) (List.mem_filter.mpr hb) hlt
  have hlive : ∀ k ∈ s.byDevice, k ∈ s.links ∧ (s.link k).alive = true := fun k hk =>
    hmem.mp (firstOfDevice_subset k hk)
  refine ⟨hlive, ?_, ?_, ?_⟩
  · intro l hl halive
    obtain ⟨k, hk, hdevice⟩ := firstOfDevice_complete (hmem.mpr ⟨hl, halive⟩) (List.not_mem_nil)
    refine ⟨k, ⟨hk, hdevice⟩, ?_⟩
    rintro k' ⟨hk', hdevice'⟩
    have hnodup := (firstOfDevice_nodup (fun l => (s.link l).device) []
      (s.liveLinks.insertionSort fun a b => s.rank a ≤ s.rank b)).2
    exact List.inj_on_of_nodup_map hnodup hk' hk (hdevice'.trans hdevice.symm)
  · intro k hk l hl halive hdevice hne
    have hlt := firstOfDevice_first k hk l (hmem.mpr ⟨hl, halive⟩) hdevice hne
    exact hbefore (hlive k hk) ⟨hl, halive⟩ hlt
  · apply firstOfDevice_ordered.imp_of_mem
    intro a b ha hb hlt
    exact hbefore (hlive a ha) (hlive b hb) hlt

/-! ### The rounds of a request -/

/-- The rounds that `handle_cbor` plans over the links `by_device` gave it. -/
def State.rounds (s : State) (w : Worker) (holders : List Text) (last : Option Text) :
    List (List LinkId) :=
  Worker.planRounds {w with devices := s.byDevice} (fun l => (s.link l).device) holders last

/-- The devices that are holders, and the others. -/
def State.holding (s : State) (holders : List Text) : List LinkId :=
  s.byDevice.filter fun l => (s.link l).device ∈ holders

def State.others (s : State) (holders : List Text) : List LinkId :=
  s.byDevice.filter fun l => (s.link l).device ∉ holders

/-- Whom the rounds of a request name. -/
structure RoundsPlanned (s : State) (w : Worker) (holders : List Text) (last : Option Text) :
    Prop where
  once : ((s.rounds w holders last).flatten.map fun l => (s.link l).device).Nodup
  only : ∀ l ∈ (s.rounds w holders last).flatten, l ∈ s.byDevice
  /-- A GET_ASSERTION that is no probe asks all devices, the holders first. -/
  signIn : w.chosen = none → w.data.head? = some GET_ASSERTION → w.probe = false →
    (s.rounds w holders last).flatten.Perm s.byDevice ∧
    (s.rounds w holders last = [s.holding holders, s.others holders] ∨
      s.holding holders = [] ∧ s.rounds w holders last = [s.others holders])
  other : w.chosen = none → w.data.head? ≠ some GET_INFO →
    w.data.head? ≠ some GET_NEXT_ASSERTION →
    (w.data.head? = some GET_ASSERTION → w.probe = true) →
      s.rounds w holders last = [s.byDevice]
  chosen : ∀ device, w.chosen = some device →
    ∀ l ∈ (s.rounds w holders last).flatten, (s.link l).device = device

theorem rounds_signIn {s : State} {w : Worker} (holders : List Text) (last : Option Text)
    (hchosen : w.chosen = none) (hdata : w.data.head? = some GET_ASSERTION)
    (hprobe : w.probe = false) : s.rounds w holders last =
      if s.byDevice.any fun l => (s.link l).device ∈ holders
        then [s.holding holders, s.others holders] else [s.byDevice] := by
  unfold State.rounds Worker.planRounds
  dsimp only
  rw [hchosen]
  dsimp only
  rw [hdata, if_neg (by decide), if_neg (by decide), hprobe]
  simp [State.holding, State.others]

theorem rounds_subset (s : State) (w : Worker) (holders : List Text) (last : Option Text) :
    (s.rounds w holders last).flatten ⊆ s.byDevice := by
  have hfind (name : Text) : (s.byDevice.find? fun l => (s.link l).device = name).toList ⊆
      s.byDevice := by
    intro l hl
    exact List.mem_of_find?_eq_some (Option.mem_toList.mp hl)
  unfold State.rounds Worker.planRounds
  dsimp only
  split
  · simpa using hfind _
  · split
    · simpa using List.take_subset 1 _
    · split
      · cases last with
        | none => simp
        | some name => simpa using hfind name
      · split
        · intro l hl
          simp only [List.flatten_cons, List.flatten_nil, List.append_nil, List.mem_append,
            List.mem_filter] at hl
          exact hl.elim (·.1) (·.1)
        · simp

theorem roundsPlanned (s : State) (w : Worker) (holders : List Text) (last : Option Text) :
    RoundsPlanned s w holders last := by
  have hsubset := rounds_subset s w holders last
  refine ⟨?_, fun l hl => hsubset hl, ?_, ?_, ?_⟩
  · have hnodup : (s.rounds w holders last).flatten.Nodup := planRounds_nodup (byDevice_nodup s) _ _ _
    have hdevices := (firstOfDevice_nodup (fun l => (s.link l).device) []
      (s.liveLinks.insertionSort fun a b => s.rank a ≤ s.rank b)).2
    rw [← byDevice_rank] at hdevices
    refine hnodup.map_on ?_
    intro a ha b hb heq
    exact List.inj_on_of_nodup_map hdevices (hsubset ha) (hsubset hb) heq
  · intro hchosen hdata hprobe
    have hpart := List.filter_append_perm (fun l => decide ((s.link l).device ∈ holders)) s.byDevice
    rw [rounds_signIn holders last hchosen hdata hprobe]
    split
    · refine ⟨?_, .inl rfl⟩
      simpa [State.holding, State.others] using hpart
    · rename_i hnone
      simp only [List.any_eq_true, decide_eq_true_eq, not_exists, not_and] at hnone
      have hholding : s.holding holders = [] := by
        rw [State.holding, List.filter_eq_nil_iff]
        simpa using hnone
      have hothers : s.others holders = s.byDevice := by
        rw [State.others, List.filter_eq_self]
        simpa using hnone
      refine ⟨by simp, .inr ⟨hholding, ?_⟩⟩
      rw [hothers]
  · intro hchosen hinfo hnext hprobe
    unfold State.rounds Worker.planRounds
    dsimp only
    rw [hchosen]
    dsimp only
    rw [if_neg hinfo, if_neg hnext, if_neg]
    simp only [Bool.and_eq_true, decide_eq_true_eq, Bool.not_eq_true', not_and]
    intro hboth
    rw [hprobe hboth.1] at hboth
    cases hboth.2
  · intro device hchosen l hl
    unfold State.rounds Worker.planRounds at hl
    dsimp only at hl
    rw [hchosen] at hl
    simp only [List.flatten_cons, List.flatten_nil, List.append_nil] at hl
    have hfound := List.find?_some (Option.mem_toList.mp hl)
    simpa using hfound

/-- Only the devices that the links of the worker are of count for its rounds. -/
theorem planRounds_congr {w : Worker} {device device' : LinkId → Text} (holders : List Text)
    (last : Option Text) (h : ∀ l ∈ w.devices, device l = device' l) :
    w.planRounds device holders last = w.planRounds device' holders last := by
  have hfind (name : Text) :
      w.devices.find? (fun l => device l = name) = w.devices.find? fun l => device' l = name := by
    rw [← List.head?_filter, ← List.head?_filter]
    apply congrArg List.head?
    apply List.filter_congr
    intro l hl
    rw [h l hl]
  have hany : w.devices.any (fun l => device l ∈ holders) =
      w.devices.any fun l => device' l ∈ holders := by
    rw [Bool.eq_iff_iff, List.any_eq_true, List.any_eq_true]
    refine exists_congr fun l => and_congr_right fun hl => ?_
    rw [h l hl]
  have hin : w.devices.filter (fun l => device l ∈ holders) =
      w.devices.filter fun l => device' l ∈ holders :=
    List.filter_congr fun l hl => by rw [h l hl]
  have hout : w.devices.filter (fun l => device l ∉ holders) =
      w.devices.filter fun l => device' l ∉ holders :=
    List.filter_congr fun l hl => by rw [h l hl]
  have hlast : last.bind (fun name => w.devices.find? fun l => device l = name) =
      last.bind fun name => w.devices.find? fun l => device' l = name := by
    cases last with
    | none => rfl
    | some name => exact hfind name
  unfold Worker.planRounds
  dsimp only
  rw [hany, hin, hout, hlast]
  split
  · rw [hfind]
  · rfl

/-- A worker asks for the links once, and plans over what it got; a link that it
got is still of the same device then. -/
structure Consulted (s : State) : Prop where
  devices : ∀ (r : RequestId) (ok : Bool) (w w' : Worker) (act : Act),
    w.turn s r ok = some (w', act) → w.pc = .plan → w'.devices = s.byDevice ∧ w'.pc = .consult
  rounds : ∀ (t : State) (r : RequestId) (ok : Bool) (w w' : Worker) (act : Act),
    w.turn t r ok = some (w', act) → w.pc = .consult → w.devices = s.byDevice →
      (∀ l ∈ s.byDevice, (t.link l).device = (s.link l).device) →
        w'.rounds = s.rounds w t.holders t.last

theorem consulted (s : State) : Consulted s where
  devices r ok w w' act h hpc := by
    rw [Worker.turn, hpc] at h
    cases h
    exact ⟨rfl, rfl⟩
  rounds t r ok w w' act h hpc hdevices hsame := by
    rw [Worker.turn, hpc] at h
    cases h
    rw [State.rounds, ← hdevices]
    exact planRounds_congr _ _ (hdevices ▸ hsame)

/-- `by_device` gives the best live link of every device, in order; the rounds
of a request name no device twice and none by another link, and they are those
that its worker plans. -/
theorem devices_once (s : State) : OnePerDevice s ∧
    (∀ (w : Worker) (holders : List Text) (last : Option Text), RoundsPlanned s w holders last) ∧
      Consulted s :=
  ⟨onePerDevice s, roundsPlanned s, consulted s⟩

end Passkey.Daemon
