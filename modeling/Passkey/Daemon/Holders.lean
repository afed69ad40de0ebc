import Passkey.Daemon.Absences
import Passkey.Daemon.Devices

/-!
What the daemon remembers of a probe. The devices that answered it with a
success are asked first by the requests that follow, but a probe that nobody
answers so leaves the holders of an earlier one, and the worker of an abandoned
probe may come late and put its own; the law holds in the runs where neither
happens.
-/

namespace Passkey.Daemon

open Library

/-! ### The condition -/

/-- The rounds of the request are over. -/
def Pc.concluded : Pc → Bool
  | .verdict _ | .report _ | .finish | .done => true
  | _ => false

/-- The next step ends the rounds of the request. -/
def Worker.concluding (w : Worker) : Bool :=
  match w.pc with
  | .judge => w.wins ≠ [] || w.failures.any isDecisive
  | .round => w.rounds = []
  | _ => false

/-- A probe whose rounds are over. -/
def Worker.probed (w : Worker) : Bool :=
  silent w.data && w.pc.concluded

/-- The last probe that came to its end, if it stayed current. -/
def LastProbe (s : State) (r : RequestId) : Prop :=
  (∃ w ∈ s.workers[r]?, w.probed = true) ∧ ¬ Abandoned r s.log ∧
    ∀ v ∈ s.workers.drop (r + 1), v.probed = false

instance (r : RequestId) (log : List Entry) : Decidable (Abandoned r log) :=
  decidable_of_iff (∃ e ∈ log, (match e.act with
    | .abandon q => q = r
    | _ => false) = true) <| by
      refine exists_congr fun e => and_congr_right fun _ => ?_
      cases e.act <;> simp

instance (s : State) (r : RequestId) : Decidable (LastProbe s r) :=
  inferInstanceAs (Decidable (_ ∧ _ ∧ _))

/-- A current probe ends with a success, unless there are no holders to forget,
and one that is not current any more ends with none after the last probe. -/
def Learns (s : State) (e : Event) : Prop :=
  match e with
  | .worker r _ => ∀ w ∈ s.workers[r]?, silent w.data = true → w.concluding = true →
      (s.busy = some r → w.wins ≠ [] ∨ s.holders = []) ∧
      (s.busy ≠ some r → w.wins ≠ [] → ∀ q < s.workers.length, r < q → ¬ LastProbe s q)
  | _ => True

instance (s : State) (e : Event) : Decidable (Learns s e) :=
  match e with
  | .worker r _ => inferInstanceAs (Decidable (∀ w ∈ s.workers[r]?, silent w.data = true →
      w.concluding = true → (s.busy = some r → w.wins ≠ [] ∨ s.holders = []) ∧
      (s.busy ≠ some r → w.wins ≠ [] → ∀ q < s.workers.length, r < q → ¬ LastProbe s q)))
  | .hid .. | .tick _ | .packet .. | .uhidClose _ | .ping .. | .stall .. | .connect .. | .close _
  | .remove _ | .receive .. | .readLink _ | .endRead _ | .choose _ => .isTrue trivial

/-! ### Links keep their device -/

theorem next_created {s t : State} {e : Event} (h : next s e = some t) : s.created ≤ t.created := by
  have hperform (actor : Actor) (act : Act) : (s.perform actor act).created = s.created := by
    cases act <;> rfl
  cases e with
  | hid u ok =>
      obtain ⟨⟨pc, act⟩, -, rfl⟩ := Option.map_eq_some_iff.mp h
      exact (hperform (.hid u) act).ge
  | worker r ok =>
      obtain ⟨⟨w', act⟩, -, rfl⟩ := Option.map_eq_some_iff.mp h
      exact (hperform (.worker r) act).ge
  | connect device priority =>
      cases h
      exact Nat.le_succ _
  | packet | uhidClose | stall | close | receive | endRead =>
      obtain ⟨-, heq⟩ := Option.ite_none_right_eq_some.mp h
      cases heq
      exact Nat.le_refl _
  | ping | remove =>
      obtain ⟨-, heq⟩ := Option.ite_none_left_eq_some.mp h
      cases heq
      exact Nat.le_refl _
  | readLink =>
      obtain ⟨-, heq⟩ := Option.ite_none_right_eq_some.mp h
      obtain ⟨link, -, rfl⟩ := Option.map_eq_some_iff.mp heq
      exact Nat.le_refl _
  | choose | tick =>
      cases h
      exact Nat.le_refl _

theorem write_response (k : Link) (body : Bytes) (ok : Bool) :
    (k.write body ok).device = k.device ∧ (k.write body ok).responses = k.responses :=
  ⟨rfl, rfl⟩

theorem close_device (k : Link) : k.close.device = k.device := by
  unfold Link.close
  split <;> rfl

theorem readLink_device {k k' : Link} (h : k.readLink = some k') : k'.device = k.device := by
  unfold Link.readLink at h
  repeat' split at h
  all_goals cases h
  · rfl
  · unfold Link.hear
    split <;> rfl

/-- A link that was created is of one device for good. -/
theorem next_device {s t : State} {e : Event} (h : next s e = some t) {l : LinkId}
    (hl : l < s.created) : (t.link l).device = (s.link l).device := by
  cases next_link h l with
  | away hlink => rw [hlink]
  | write hlink =>
      rw [hlink]
      exact (write_response ..).1
  | take _ _ _ _ hlink => rw [hlink]
  | ping _ hlink =>
      rw [hlink]
      exact (write_response ..).1
  | stall _ hlink => rw [hlink]
  | connect he =>
      subst he
      cases h
      exact congrArg Link.device (Function.update_of_ne (Nat.ne_of_lt hl) ..)
  | close _ hlink =>
      rw [hlink]
      exact close_device _
  | receive _ hlink => rw [hlink]
  | readLink _ hlink => exact readLink_device hlink
  | endRead _ hlink => rw [hlink]

/-- Answers come from links that were created. -/
structure Familiar (s : State) : Prop where
  quiet : ∀ l, s.created ≤ l → (s.link l).responses = []
  taken : ∀ l, Logged (fun act => ∃ r response, act = .take r l response) s.log → l < s.created

theorem Familiar.quiet_step {s t : State} {e : Event} (h : Familiar s) (hnext : next s e = some t)
    {l : LinkId} (hl : t.created ≤ l) : (t.link l).responses = [] := by
  have hbefore := h.quiet l (Nat.le_trans (next_created hnext) hl)
  have hcreated (hlt : l < s.created) : (t.link l).responses = [] :=
    absurd (Nat.lt_of_lt_of_le hlt (Nat.le_trans (next_created hnext) hl)) (Nat.lt_irrefl l)
  cases next_link hnext l with
  | away hlink => rwa [hlink]
  | write hlink => rwa [hlink, (write_response ..).2]
  | take _ _ _ hqueue =>
      rw [hbefore] at hqueue
      cases hqueue
  | ping _ hlink => rwa [hlink, (write_response ..).2]
  | stall _ hlink => rwa [hlink]
  | connect _ hlink => rwa [hlink]
  | close he =>
      subst he
      exact hcreated (Option.ite_none_right_eq_some.mp hnext).1
  | receive _ hlink => rwa [hlink]
  | readLink he =>
      subst he
      exact hcreated (Option.ite_none_right_eq_some.mp hnext).1
  | endRead _ hlink => rwa [hlink]

theorem Familiar.step {s t : State} {e : Event} (h : Familiar s) (hnext : next s e = some t) :
    Familiar t := by
  refine ⟨fun l hl => h.quiet_step hnext hl, ?_⟩
  intro l htaken
  refine Nat.lt_of_lt_of_le ?_ (next_created hnext)
  have hsame (hlog : t.log = s.log) : l < s.created := h.taken l (hlog ▸ htaken)
  have hnew {x : Entry} (hlog : t.log = s.log ++ [x])
      (hx : ∀ r response, x.act ≠ .take r l response) : l < s.created := by
    rw [hlog, logged_snoc] at htaken
    rcases htaken with hold | ⟨r, response, hact⟩
    · exact h.taken l hold
    · exact absurd hact (hx r response)
  cases next_link hnext l with
  | away _ hlog =>
      rcases hlog with hlog | ⟨x, hlog, haway⟩
      · exact hsame hlog
      · refine hnew hlog ?_
        intro r response hact
        rw [hact] at haway
        exact haway rfl
  | write _ hlog => exact hnew hlog (by simp)
  | take _ _ _ hqueue =>
      by_contra hnot
      rw [h.quiet l (Nat.le_of_not_lt hnot)] at hqueue
      cases hqueue
  | ping _ _ hlog => exact hsame hlog
  | stall _ _ hlog => exact hsame hlog
  | connect _ _ hlog => exact hsame hlog
  | close _ _ hlog => exact hsame hlog
  | receive _ _ hlog => exact hsame hlog
  | readLink _ _ hlog => exact hsame hlog
  | endRead _ _ hlog => exact hsame hlog

theorem familiar_reachable {pid : UInt32} {s : State} (h : Reach next always (start pid) s) :
    Familiar s :=
  h.invariant ⟨fun _ _ => rfl, by simp [Logged, start]⟩ fun _ _ _ hs _ hnext => hs.step hnext

/-! ### What a probe leaves -/

/-- What a worker knows of its request once it has begun. -/
def Probed (w : Worker) : Prop :=
  w.pc = .plan ∧ w.probe = false ∨ w.pc ≠ .plan ∧ w.probe = silent w.data

theorem silent_head {data : Bytes} (h : silent data = true) : data.head? = some GET_ASSERTION := by
  by_contra hnot
  unfold silent at h
  rw [if_pos hnot] at h
  cases h

theorem turn_leaves_plan {s : State} {r : RequestId} {w w' : Worker} {act : Act}
    (h : Turn s r w w' act) : w'.pc ≠ .plan := by
  intro hplan
  cases h with
  | @take l rest heard response =>
      have hplanned := (poll_planned w l rest heard (some response)).1
      rw [hplan] at hplanned
      exact hplanned
  | judge =>
      have hplanned := (judge_planned w fun l => (s.link l).device).1
      rw [hplan] at hplanned
      exact hplanned
  | swept => split at hplan <;> cases hplan
  | emptyRound hpc => simp [hpc] at hplan
  | _ => cases hplan

theorem Probed.turn {s : State} {r : RequestId} {w w' : Worker} {act : Act} (h : Probed w)
    (hturn : Turn s r w w' act) : Probed w' := by
  refine .inr ⟨turn_leaves_plan hturn, ?_⟩
  rw [(turn_request hturn).data]
  rcases h with ⟨hplan, -⟩ | ⟨hbegun, hprobe⟩
  · cases hturn with
    | plan => rfl
    | _ => simp_all
  · rw [← hprobe]
    exact (turn_probe hturn).resolve_left hbegun

theorem probed_reachable {pid : UInt32} {s : State} (h : Reach next always (start pid) s)
    {r : RequestId} {w : Worker} (hw : s.workers[r]? = some w) : Probed w := by
  refine Reach.invariant (I := fun s => ∀ (r : RequestId) (w : Worker),
    s.workers[r]? = some w → Probed w) (by simp [start]) ?_ h r w hw
  intro s e t hs _ hnext q v hv
  cases (step_cases hnext).moved hv with
  | own _ hbefore hturn => exact (hs q _ hbefore).turn hturn
  | other locked hbefore hsame =>
      have hprobed := hs q _ hbefore
      subst hsame
      exact hprobed
  | spawned _ hnew =>
      subst hnew
      exact .inl ⟨rfl, rfl⟩

theorem turn_concluded {s : State} {r : RequestId} {w w' : Worker} {act : Act}
    (h : Turn s r w w' act) (hpc : w.pc.concluded = true) :
    w'.pc.concluded = true ∧ w'.wins = w.wins ∧
      (s.perform (.worker r) act).holders = s.holders := by
  cases h with
  | current => exact ⟨rfl, rfl, rfl⟩
  | stale => exact ⟨rfl, rfl, rfl⟩
  | reported => exact ⟨rfl, rfl, rfl⟩
  | report => exact ⟨rfl, rfl, rfl⟩
  | finish => exact ⟨rfl, rfl, rfl⟩
  | _ => simp_all [Pc.concluded]

theorem judge_wins (w : Worker) (device : LinkId → Text) :
    (w.judge device).1.wins = w.wins := by
  unfold Worker.judge
  repeat' split
  all_goals rfl

/-- The probe's successes become the holders, where there are any. -/
theorem judge_holders {s : State} {w : Worker} (actor : Actor) {device : LinkId → Text}
    (hprobe : w.probe = true) (hhead : w.data.head? = some GET_ASSERTION) :
    (s.perform actor (w.judge device).2).holders =
      if w.wins = [] then s.holders else w.wins.map fun win => device win.1 := by
  unfold Worker.judge
  split
  · rename_i hwins
    rw [if_pos hhead, hprobe, hwins]
    rfl
  · rename_i hwins
    rw [if_pos hwins]
    split <;> rfl

theorem judge_concluded {w : Worker} {device : LinkId → Text} (hpc : w.pc = .judge)
    (h : (w.judge device).1.pc.concluded = true) : w.concluding = true := by
  unfold Worker.judge at h
  split at h
  · rename_i hwins
    simp [Worker.concluding, hpc, hwins]
  · split at h
    · rename_i hdecisive
      simp [Worker.concluding, hpc, hdecisive]
    · cases h

/-- The end of the rounds of a probe. -/
theorem turn_concluding {s : State} {r : RequestId} {w w' : Worker} {act : Act}
    (h : Turn s r w w' act) (hpc : w.pc.concluded = false) (hafter : w'.pc.concluded = true)
    (hdecided : Decided w) (hprobed : Probed w) (hsilent : silent w.data = true) :
    w.concluding = true ∧ w'.wins = w.wins ∧ (s.perform (.worker r) act).holders =
      if w.wins = [] then s.holders else w.wins.map fun win => (s.link win.1).device := by
  cases h with
  | roundsOver hround hrounds =>
      have hwins : w.wins = [] := hdecided.between (by rw [hround]; trivial)
      refine ⟨by simp [Worker.concluding, hround, hrounds], rfl, ?_⟩
      rw [if_pos hwins]
      rfl
  | judge hjudge =>
      have hprobe : w.probe = true := by
        rcases hprobed with ⟨hplan, -⟩ | ⟨-, hprobe⟩
        · rw [hjudge] at hplan
          cases hplan
        · rw [hprobe, hsilent]
      exact ⟨judge_concluded hjudge hafter, judge_wins ..,
        judge_holders _ hprobe (silent_head hsilent)⟩
  | @take l rest heard response =>
      have hfanning := (poll_errors w l rest heard (some response)).2.1
      revert hafter hfanning
      cases (w.poll l rest heard (some response)).pc <;> simp [Pc.concluded, Pc.fanning]
  | swept => split at hafter <;> cases hafter
  | emptyRound hround => simp [hround, Pc.concluded] at hafter
  | _ => simp_all [Pc.concluded]

/-- Where a step of a worker sets the holders: at the end of a probe that was
answered with a success. -/
theorem turn_holders {s : State} {r : RequestId} {w w' : Worker} {act : Act}
    (h : Turn s r w w' act) : (s.perform (.worker r) act).holders = s.holders ∨
      w.probe = true ∧ w.concluding = true ∧ w.wins ≠ [] ∧ w'.pc.concluded = true := by
  cases h with
  | judge hpc =>
      unfold Worker.judge
      split
      · rename_i hwins
        by_cases hprobe : w.probe = true
        · exact .inr ⟨hprobe, by simp [Worker.concluding, hpc, hwins], by simp [hwins], rfl⟩
        · left
          rw [if_neg hprobe]
          split <;> rfl
      · left
        split <;> rfl
  | _ => exact .inl rfl

theorem next_holders {s t : State} {e : Event} (h : next s e = some t) : t.holders = s.holders ∨
    ∃ q ok w w', e = .worker q ok ∧ s.workers[q]? = some w ∧ t.workers[q]? = some w' ∧
      w.probe = true ∧ w.concluding = true ∧ w.wins ≠ [] ∧ w'.pc.concluded = true := by
  cases e with
  | worker q ok =>
      obtain ⟨w, w', act, hw, hrun, rfl⟩ := next_worker h
      have hturn := turn_cases hrun
      refine (turn_holders hturn).imp_right ?_
      rintro ⟨hprobe, hconcluding, hwins, hafter⟩
      refine ⟨q, ok, w, w', rfl, hw, ?_, hprobe, hconcluding, hwins, hafter⟩
      rw [setWorker_workers, (turn_own hturn).workers, List.getElem?_set_self', hw]
      rfl
  | hid u ok =>
      left
      obtain ⟨⟨pc, act⟩, hrun, rfl⟩ := Option.map_eq_some_iff.mp h
      have hturn := hidTurn_cases hrun
      generalize s.hid u = before at hturn
      cases hturn with
      | quiet _ _ hquiet => cases hquiet <;> rfl
      | _ => rfl
  | packet | uhidClose | stall | close | receive | endRead =>
      obtain ⟨-, heq⟩ := Option.ite_none_right_eq_some.mp h
      cases heq
      exact .inl rfl
  | ping | remove =>
      obtain ⟨-, heq⟩ := Option.ite_none_left_eq_some.mp h
      cases heq
      exact .inl rfl
  | readLink =>
      obtain ⟨-, heq⟩ := Option.ite_none_right_eq_some.mp h
      obtain ⟨link, -, rfl⟩ := Option.map_eq_some_iff.mp heq
      exact .inl rfl
  | connect | choose | tick =>
      cases h
      exact .inl rfl

/-! ### The law -/

/-- The device answered the probe with a success. -/
def Found (s : State) (r : RequestId) (device : Text) : Prop :=
  ∃ w ∈ s.workers[r]?, ∃ l payload, Recorded r w.number l payload s.log ∧ Success payload ∧
    (s.link l).device = device

/-- Devices are asked in two rounds, those with the property in the first. -/
def AsksFirst (found : LinkId → Prop) (devices : List LinkId) (rounds : List (List LinkId)) :
    Prop :=
  ∃ first rest, (rounds = [first, rest] ∨ first = [] ∧ rounds = [rest]) ∧
    (∀ l, l ∈ first ↔ l ∈ devices ∧ found l) ∧ ∀ l, l ∈ rest ↔ l ∈ devices ∧ ¬ found l

/-- After a probe that stayed current the holders are the devices that answered
it with a success, and the next GET_ASSERTION asks these first. -/
structure HoldersLaw (s : State) : Prop where
  exact : ∀ r, LastProbe s r → ∀ device, device ∈ s.holders ↔ Found s r device
  next : ∀ r, LastProbe s r → ∀ (q : RequestId) (ok : Bool) (w w' : Worker) (act : Act),
    s.workers[q]? = some w → w.pc = .consult → w.chosen = none →
      w.data.head? = some GET_ASSERTION → silent w.data = false →
        w.turn s q ok = some (w', act) →
          AsksFirst (fun l => Found s r (s.link l).device) w.devices w'.rounds

/-- The successes of the last probe, as its worker keeps them. -/
def Kept (s : State) : Prop :=
  ∀ r, LastProbe s r → ∀ w, s.workers[r]? = some w → ∀ device, device ∈ s.holders ↔
    device ∈ w.wins.map fun win => (s.link win.1).device

/-- A worker has all answers of its request that are successes. -/
theorem mem_wins {pid : UInt32} {ok : State → Event → Prop} {s : State}
    (h : Reach next ok (start pid) s) {r : RequestId} {w : Worker} (hw : s.workers[r]? = some w)
    {l : LinkId} {payload : Bytes} :
    (l, payload) ∈ w.wins ↔ Recorded r w.number l payload s.log ∧ Success payload := by
  obtain ⟨strides, hsolo⟩ := solo_reachable h r w hw
  obtain ⟨channel, number, data, hrun⟩ := hsolo.run
  rw [(handling_run hrun).tallied.wins, List.mem_filter, decide_eq_true_eq]
  refine and_congr_left fun hsuccess => ?_
  have hnonempty : payload ≠ [] := by
    intro hnil
    rw [hnil] at hsuccess
    cases hsuccess
  have hrecorded := hsolo.recorded h (b := (l, payload))
  rw [← hrecorded]
  exact (and_iff_left hnonempty).symm

theorem found_iff {pid : UInt32} {ok : State → Event → Prop} {s : State}
    (h : Reach next ok (start pid) s) {r : RequestId} {w : Worker} (hw : s.workers[r]? = some w)
    {device : Text} :
    Found s r device ↔ device ∈ w.wins.map fun win => (s.link win.1).device := by
  rw [List.mem_map]
  constructor
  · rintro ⟨v, hv, l, payload, hrecorded, hsuccess, hdevice⟩
    obtain rfl := Option.some.inj (hw.symm.trans hv)
    exact ⟨(l, payload), (mem_wins h hw).mpr ⟨hrecorded, hsuccess⟩, hdevice⟩
  · rintro ⟨⟨l, payload⟩, hmem, hdevice⟩
    obtain ⟨hrecorded, hsuccess⟩ := (mem_wins h hw).mp hmem
    exact ⟨w, hw, l, payload, hrecorded, hsuccess, hdevice⟩

/-- The devices of a worker's successes stay the same. -/
theorem wins_devices {pid : UInt32} {s t : State} {e : Event} (h : Reach next always (start pid) s)
    (hnext : next s e = some t) {r : RequestId} {w : Worker} (hw : s.workers[r]? = some w) :
    (w.wins.map fun win => (t.link win.1).device) =
      w.wins.map fun win => (s.link win.1).device := by
  apply List.map_congr_left
  intro win hwin
  apply next_device hnext
  apply (familiar_reachable h).taken
  obtain ⟨x, hx, hact, -⟩ := ((sourced_reachable h hw).wins win hwin).1
  exact ⟨x, hx, r, _, hact⟩

/-- A probe that has ended stays so. -/
theorem probed_step {s t : State} {e : Event} (h : Step s e t) {r : RequestId} {w : Worker}
    (hw : s.workers[r]? = some w) (hprobed : w.probed = true) :
    ∃ w', t.workers[r]? = some w' ∧ w'.probed = true := by
  rw [Worker.probed, Bool.and_eq_true] at hprobed
  obtain ⟨w', hw', ⟨ok, act, -, hturn, -⟩ | ⟨locked, hsame, -⟩⟩ := h.after hw
  · refine ⟨w', hw', ?_⟩
    rw [Worker.probed, (turn_request hturn).data, hprobed.1, (turn_concluded hturn hprobed.2).1]
    rfl
  · subst hsame
    refine ⟨_, hw', ?_⟩
    rw [Worker.probed, Bool.and_eq_true]
    exact hprobed

/-- What was the last probe after a step was it before, if it had ended. -/
theorem LastProbe.before {s t : State} {e : Event} {r : RequestId} (h : LastProbe t r)
    (hstep : Step s e t) {w : Worker} (hw : s.workers[r]? = some w) (hprobed : w.probed = true) :
    LastProbe s r := by
  obtain ⟨-, habandoned, hlast⟩ := h
  refine ⟨⟨w, hw, hprobed⟩, ?_, ?_⟩
  · intro hbefore
    obtain ⟨more, hlog⟩ := hstep.log
    exact habandoned (hlog ▸ hbefore.append more)
  · intro v hv
    obtain ⟨i, hi⟩ := List.mem_iff_getElem?.mp hv
    rw [List.getElem?_drop] at hi
    by_contra hnot
    rw [Bool.not_eq_false] at hnot
    obtain ⟨v', hv', hprobed'⟩ := probed_step hstep hi hnot
    have hfalse := hlast v' (List.mem_iff_getElem?.mpr ⟨i, by rw [List.getElem?_drop]; exact hv'⟩)
    rw [hprobed'] at hfalse
    cases hfalse

/-- No newer probe has ended. -/
theorem LastProbe.newest {s : State} {r q : RequestId} {w : Worker} (h : LastProbe s r)
    (hlt : r < q) (hw : s.workers[q]? = some w) : w.probed = false := by
  apply h.2.2
  refine List.mem_iff_getElem?.mpr ⟨q - (r + 1), ?_⟩
  rw [List.getElem?_drop, Nat.add_sub_of_le hlt]
  exact hw

theorem Worker.concluding_not {w : Worker} (h : w.concluding = true) : w.pc.concluded = false := by
  unfold Worker.concluding at h
  split at h
  · rename_i hpc
    rw [hpc]
    rfl
  · rename_i hpc
    rw [hpc]
    rfl
  · cases h

/-- The end of a probe that is the last one makes its successes the holders. -/
theorem Kept.concluded {pid : UInt32} {s t : State} {r : RequestId} {ok : Bool} {w w' : Worker}
    {act : Act} (hs : Reach next Learns (start pid) s) (hok : Learns s (.worker r ok))
    (hnext : next s (.worker r ok) = some t) (hw : s.workers[r]? = some w)
    (hturn : Turn s r w w' act)
    (ht : t = (s.perform (.worker r) act).setWorker r w') (hbefore : w.pc.concluded = false)
    (hprobed : w'.probed = true) (hcurrent : ¬ Abandoned r s.log) (device : Text) :
    device ∈ t.holders ↔ device ∈ w'.wins.map fun win => (t.link win.1).device := by
  have hall := hs.weaken
  rw [Worker.probed, (turn_request hturn).data, Bool.and_eq_true] at hprobed
  obtain ⟨hconcluding, hwins, hholders⟩ := turn_concluding hturn hbefore hprobed.2
    (decided_reachable hall hw) (probed_reachable hall hw) hprobed.1
  have hbusy : s.busy = some r :=
    ((inv_reachable hall).current r w hw (turn_not_done hturn)).resolve_right hcurrent
  have hlearns := (hok w hw hprobed.1 hconcluding).1 hbusy
  have hset : t.holders = (s.perform (.worker r) act).holders := by
    rw [ht]
    rfl
  rw [hset, hholders, hwins, wins_devices hall hnext hw]
  split
  · rename_i hnone
    have hempty := hlearns.resolve_left fun hsome => hsome hnone
    rw [hempty, hnone]
    rfl
  · exact Iff.rfl

/-- The holders are set by no other worker once the last probe has ended. -/
theorem LastProbe.undisturbed {pid : UInt32} {s t : State} {e : Event} {r : RequestId}
    (hs : Reach next Learns (start pid) s) (hok : Learns s e) (hnext : next s e = some t)
    (hbefore : LastProbe s r) (hafter : LastProbe t r) :
    t.holders = s.holders := by
  refine (next_holders hnext).resolve_right ?_
  rintro ⟨q, ok, v, v', rfl, hv, hv', hprobe, hconcluding, hwins, hconcluded⟩
  have hall := hs.weaken
  have hsilent : silent v.data = true := by
    rcases probed_reachable hall hv with ⟨-, hfalse⟩ | ⟨-, hsame⟩
    · rw [hprobe] at hfalse
      cases hfalse
    · rw [← hsame, hprobe]
  have hprobed : v'.probed = true := by
    obtain ⟨u, hu, hsame⟩ := (step_cases hnext).request hv
    obtain rfl := Option.some.inj (hu.symm.trans hv')
    rw [Worker.probed, hsame.data, hsilent, hconcluded]
    rfl
  obtain ⟨w, hw, hended⟩ := hbefore.1
  have hr : r < s.workers.length := (List.getElem?_eq_some_iff.mp hw).1
  rcases Nat.lt_trichotomy r q with hlt | heq | hgt
  · have hfalse := hafter.newest hlt hv'
    rw [hprobed] at hfalse
    cases hfalse
  · subst heq
    obtain rfl := Option.some.inj (hw.symm.trans hv)
    rw [Worker.probed, Worker.concluding_not hconcluding, Bool.and_false] at hended
    cases hended
  · have hstale : s.busy ≠ some q := by
      intro hbusy
      have hnewest := (inv_reachable hall).newest q hbusy
      exact Nat.not_lt.mpr (hnewest ▸ hgt) hr
    exact (hok v hv hsilent hconcluding).2 hstale hwins r hr hgt hbefore

theorem kept_reachable {pid : UInt32} {s : State} (h : Reach next Learns (start pid) s) :
    Kept s := by
  induction h with
  | refl =>
      intro r hlast w hw
      simp [start] at hw
  | @tail s t e hs hok hnext ih =>
      intro r hlast w' hw' device
      have hall := hs.weaken
      have hstep := step_cases hnext
      have hcurrent : ¬ Abandoned r s.log := by
        intro hbefore
        obtain ⟨more, hlog⟩ := hstep.log
        exact hlast.2.1 (hlog ▸ hbefore.append more)
      have hprobed : w'.probed = true := by
        obtain ⟨v, hv, hprobed⟩ := hlast.1
        obtain rfl := Option.some.inj (hw'.symm.trans hv)
        exact hprobed
      cases hstep.moved hw' with
      | @own b w act he hw hturn ht =>
          subst he
          have hdata := (turn_request hturn).data
          by_cases hbefore : w.pc.concluded = true
          · obtain ⟨-, hwins, hholders⟩ := turn_concluded hturn hbefore
            have hprobed' : w.probed = true := by
              rw [Worker.probed, hdata, Bool.and_eq_true] at hprobed
              rw [Worker.probed, hprobed.1, hbefore]
              rfl
            have hset : t.holders = s.holders := by
              rw [ht, ← hholders]
              rfl
            rw [hset, hwins, wins_devices hall hnext hw]
            exact ih r (hlast.before hstep hw hprobed') w hw device
          · rw [Bool.not_eq_true] at hbefore
            exact Kept.concluded hs hok hnext hw hturn ht hbefore hprobed hcurrent device
      | @other w locked hw hsame hlog =>
          subst hsame
          have hbefore := hlast.before hstep hw hprobed
          rw [hbefore.undisturbed hs hok hnext hlast]
          have hkept := ih r hbefore w hw device
          rwa [← wins_devices hall hnext hw] at hkept
      | spawned _ hnew =>
          subst hnew
          simp [Worker.probed, Pc.concluded] at hprobed

theorem planRounds_signIn {w : Worker} (device : LinkId → Text) (holders : List Text)
    (last : Option Text) (hchosen : w.chosen = none) (hhead : w.data.head? = some GET_ASSERTION)
    (hprobe : w.probe = false) :
    AsksFirst (fun l => device l ∈ holders) w.devices (w.planRounds device holders last) := by
  refine ⟨w.devices.filter fun l => device l ∈ holders, w.devices.filter fun l => device l ∉ holders,
    ?_, by simp, by simp⟩
  unfold Worker.planRounds
  rw [hchosen]
  dsimp only
  rw [hhead, if_neg (by decide), if_neg (by decide), hprobe]
  cases hany : w.devices.any fun l => decide (device l ∈ holders) with
  | true => exact .inl rfl
  | false =>
      right
      rw [List.any_eq_false] at hany
      have hall : (w.devices.filter fun l => device l ∉ holders) = w.devices := by
        rw [List.filter_eq_self]
        simpa using hany
      refine ⟨List.filter_eq_nil_iff.mpr hany, ?_⟩
      rw [hall]
      rfl

/-- In every run in which each current probe finds a device unless none was
known, and no abandoned one comes late with its own, the holders are those of
the last probe. -/
theorem holders_of_last_probe {pid : UInt32} {s : State} (h : Reach next Learns (start pid) s) :
    HoldersLaw s := by
  have hexact : ∀ r, LastProbe s r → ∀ device, device ∈ s.holders ↔ Found s r device := by
    intro r hlast device
    obtain ⟨w, hw, -⟩ := hlast.1
    rw [found_iff h hw]
    exact kept_reachable h r hlast w hw device
  refine ⟨hexact, ?_⟩
  intro r hlast q ok w w' act hw hpc hchosen hhead hsilent hturn
  have hprobe : w.probe = false := by
    rcases probed_reachable h.weaken hw with ⟨hplan, -⟩ | ⟨-, hsame⟩
    · rw [hpc] at hplan
      cases hplan
    · rw [hsame, hsilent]
  have hrounds : w'.rounds = w.planRounds (fun l => (s.link l).device) s.holders s.last := by
    rw [Worker.turn, hpc] at hturn
    cases hturn
    rfl
  have hplanned := planRounds_signIn (fun l => (s.link l).device) s.holders s.last hchosen hhead hprobe
  rw [hrounds]
  simpa only [← hexact r hlast] using hplanned

/-- A request after a probe is about to consult the holders. -/
theorem holders_after_probe : ∃ s, Reach next Learns (start 1) s ∧ HoldersLaw s ∧
    LastProbe s 0 ∧ s.holders = ["a".toList] ∧
      ∃ w, s.workers[1]? = some w ∧ w.pc = .consult ∧ w.devices = [0, 1] := by
  obtain ⟨s, w, hrun, hlast, hholders, hw, hpc, hdevices⟩ : ∃ s w, replay next Learns (start 1)
      (List.flatten [probeEvents, [.packet 0 [0, 0, 0, 1, CBOR, 0, 2, GET_ASSERTION, 0xa0]],
        List.replicate 6 (.hid 0 true), [.worker 1 true]]) = some s ∧
        decide (LastProbe s 0) = true ∧ s.holders = ["a".toList] ∧
        s.workers[1]? = some w ∧ w.pc = .consult ∧ w.devices = [0, 1] :=
    ⟨_, _, rfl, rfl, rfl, rfl, rfl, rfl⟩
  have hreach := reach_of_replay hrun
  exact ⟨s, hreach, holders_of_last_probe hreach, of_decide_eq_true hlast, hholders, w, hw, hpc,
    hdevices⟩

/-- A second probe, to which nobody has a credential. -/
def vainProbeEvents : List Event :=
  List.flatten [[.packet 0 ([0, 0, 0, 1, CBOR, 0, 8] ++ probe)], List.replicate 6 (.hid 0 true),
    List.replicate 8 (.worker 1 true),
    [.receive 0 (frame [RESP, 0, 0, 0, 2, NO_CREDENTIALS]), .readLink 0,
      .receive 1 (frame [RESP, 0, 0, 0, 2, NO_CREDENTIALS]), .readLink 1],
    List.replicate 9 (.worker 1 true)]

/-- The second request takes a success. -/
def Entry.takesSuccess (e : Entry) : Bool :=
  match e.act with
  | .take 1 _ (_, 0 :: _) => true
  | _ => false

/-- It leaves the device that the first probe found. -/
theorem holders_left_over : ∃ s, Reach next always (start 1) s ∧ ¬ HoldersLaw s := by
  obtain ⟨s, hrun, hlast, hholders, htaken⟩ : ∃ s, replay next always (start 1)
      (probeEvents ++ vainProbeEvents) = some s ∧ decide (LastProbe s 1) = true ∧
        s.holders = ["a".toList] ∧ s.log.any Entry.takesSuccess = false :=
    ⟨_, rfl, rfl, rfl, rfl⟩
  refine ⟨s, reach_of_replay hrun, ?_⟩
  intro hlaw
  have hmem : "a".toList ∈ s.holders := by
    rw [hholders]
    exact List.mem_singleton_self _
  obtain ⟨w, -, l, payload, ⟨e, he, hact, -⟩, hsuccess, -⟩ :=
    (hlaw.exact 1 (of_decide_eq_true hlast) _).mp hmem
  obtain ⟨rest, rfl⟩ : ∃ rest, payload = 0 :: rest := by
    cases payload with
    | nil => cases hsuccess
    | cons b rest => exact ⟨rest, by rw [Option.some.inj hsuccess]⟩
  rw [List.any_eq_false] at htaken
  apply htaken e he
  simp [Entry.takesSuccess, hact]

end Passkey.Daemon
