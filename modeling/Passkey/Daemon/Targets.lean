import Passkey.Daemon.Records

/-!
A link is asked at most once for a request: its rounds name each link at most
once, and the send loop of a round drops a link when it has written to it.
-/

namespace Passkey.Daemon

open Library

/-! ### The rounds of a request -/

/-- No device is taken twice, and none that was seen before. -/
theorem firstOfDevice_nodup (device : LinkId → Text) (seen : List Text) (links : List LinkId) :
    (∀ l ∈ firstOfDevice device seen links, device l ∉ seen) ∧
      ((firstOfDevice device seen links).map device).Nodup := by
  induction links generalizing seen with
  | nil => exact ⟨by simp [firstOfDevice], List.nodup_nil⟩
  | cons l rest ih =>
      unfold firstOfDevice
      split
      · exact ih seen
      · rename_i hnew
        obtain ⟨hrest, hnodup⟩ := ih (device l :: seen)
        constructor
        · intro k hk
          rcases List.mem_cons.mp hk with rfl | hlater
          · exact hnew
          · exact fun hseen => hrest k hlater (List.mem_cons_of_mem _ hseen)
        · rw [List.map_cons, List.nodup_cons]
          refine ⟨fun hmem => ?_, hnodup⟩
          obtain ⟨k, hk, hsame⟩ := List.mem_map.mp hmem
          exact hrest k hk (hsame ▸ List.mem_cons_self)

theorem byDevice_nodup (s : State) : s.byDevice.Nodup :=
  .of_map _ (firstOfDevice_nodup ..).2

theorem toList_nodup {α : Type*} (o : Option α) : o.toList.Nodup := by
  cases o <;> simp

/-- The rounds of a request name each link at most once. -/
theorem planRounds_nodup {w : Worker} (h : w.devices.Nodup) (device : LinkId → Text)
    (holders : List Text) (last : Option Text) :
    (w.planRounds device holders last).flatten.Nodup := by
  unfold Worker.planRounds
  dsimp only
  split
  · simpa using toList_nodup _
  · split
    · simpa using h.sublist (List.take_sublist 1 _)
    · split
      · simpa using toList_nodup _
      · split
        · have hpart : [w.devices.filter fun l => device l ∈ holders,
              w.devices.filter fun l => device l ∉ holders].flatten =
              w.devices.filter (fun l => device l ∈ holders) ++
                w.devices.filter fun l => device l ∉ holders := by
            simp
          rw [hpart, List.nodup_append]
          refine ⟨h.filter _, h.filter _, fun a ha b hb hab => ?_⟩
          have hin := (List.mem_filter.mp ha).2
          have hout := (List.mem_filter.mp hb).2
          simp only [decide_eq_true_eq] at hin hout
          exact hout (hab ▸ hin)
        · simpa using h

/-- The links that the request still has to ask. -/
def Worker.targets (w : Worker) : List LinkId :=
  (match w.pc with
    | .send todo => todo
    | _ => []) ++ w.rounds.flatten

/-- What a step of a worker does to the links that it has to ask. -/
inductive Aimed (w w' : Worker) : Act → Prop where
  | kept {act : Act} (hact : ∀ l, act.asks l = none) (htargets : w'.targets = w.targets)
      (hplanned : w.pc.Planned → w'.pc.Planned) : Aimed w w' act
  | planned (hpc : ¬ w.pc.Planned) (hpc' : w'.pc.Planned) (htargets : w'.targets.Nodup) :
      Aimed w w' .pass
  | asks {r : RequestId} {l : LinkId} {ok : Bool} (htargets : w.targets = l :: w'.targets)
      (hpc' : w'.pc.Planned) : Aimed w w' (.write (.req r w.number w.data) l ok)

theorem poll_targets (w : Worker) (l : LinkId) (rest : List LinkId) (heard : Bool)
    (response : Option (UInt32 × Bytes)) :
    (w.poll l rest heard response).targets = w.rounds.flatten := by
  unfold Worker.poll
  repeat' split
  all_goals rfl

theorem judge_targets (w : Worker) (device : LinkId → Text) :
    (w.judge device).1.targets = w.rounds.flatten ∧
      ∀ l, (w.judge device).2.asks l = none := by
  unfold Worker.judge
  repeat' split
  all_goals exact ⟨rfl, fun _ => rfl⟩

theorem turn_aimed {s : State} {r : RequestId} {w w' : Worker} {act : Act}
    (h : Turn s r w w' act) (hdevices : w.devices.Nodup) : Aimed w w' act := by
  have hplanned {pc : Pc} (hpc : w.pc = pc) (hother : pc.Planned) (hafter : w'.pc.Planned) :
      w.pc.Planned → w'.pc.Planned := fun _ => hafter
  cases h with
  | plan hpc =>
      refine .kept (fun _ => rfl) (by simp [Worker.targets, hpc]) fun hbefore => ?_
      rw [hpc] at hbefore
      exact hbefore.elim
  | consult hpc =>
      refine .planned (by simp [hpc, Pc.Planned]) trivial ?_
      exact planRounds_nodup hdevices _ _ _
  | emptyRound hpc hrounds => exact .kept (fun _ => rfl) (by simp [Worker.targets, hpc, hrounds]) id
  | enter hpc hrounds =>
      exact .kept (fun _ => rfl) (by simp [Worker.targets, hpc, hrounds]) fun _ => trivial
  | send hpc => exact .asks (by simp [Worker.targets, hpc]) trivial
  | take hpc =>
      refine .kept (fun _ => rfl) ?_ fun _ => (poll_planned ..).1
      rw [poll_targets]
      simp [Worker.targets, hpc]
  | judge hpc =>
      obtain ⟨htargets, hact⟩ := judge_targets w fun l => (s.link l).device
      refine .kept hact ?_ fun _ => (judge_planned ..).1
      rw [htargets]
      simp [Worker.targets, hpc]
  | @swept heard hpc =>
      refine .kept (fun _ => rfl) ?_ fun _ => ?_
      · cases heard <;> simp [Worker.targets, hpc]
      · cases heard <;> trivial
  | _ => exact .kept (fun _ => rfl) (by simp [Worker.targets, *]) fun _ => trivial

theorem turn_devices {s : State} {r : RequestId} {w w' : Worker} {act : Act}
    (h : Turn s r w w' act) (hdevices : w.devices.Nodup) : w'.devices.Nodup := by
  cases h with
  | plan => exact byDevice_nodup s
  | take =>
      unfold Worker.poll
      repeat' split
      all_goals exact hdevices
  | judge =>
      unfold Worker.judge
      repeat' split
      all_goals exact hdevices
  | _ => exact hdevices

/-! ### Every run -/

/-- The link got a REQ frame for the request. -/
def AskedOn (l : LinkId) (r : RequestId) (log : List Entry) : Prop :=
  r ∈ (asks l log).map Ask.r

/-- What a worker has to ask, it has not asked yet. -/
structure Aiming (r : RequestId) (log : List Entry) (w : Worker) : Prop where
  devices : w.devices.Nodup
  targets : w.targets.Nodup
  ahead : ∀ l ∈ w.targets, ¬ AskedOn l r log
  fresh : ¬ w.pc.Planned → ∀ l, ¬ AskedOn l r log

structure AsksOnce (s : State) : Prop where
  aiming : ∀ (r : RequestId) (w : Worker), s.workers[r]? = some w → Aiming r s.log w
  once : ∀ l, ((asks l s.log).map Ask.r).Nodup

theorem asksOnce_start (pid : UInt32) : AsksOnce (start pid) :=
  ⟨by simp [start], by simp [start, asks]⟩

/-- Only the worker of a request asks for it. -/
theorem Step.asks {s t : State} {e : Event} (h : Step s e t) (l : LinkId) :
    asks l t.log = asks l s.log ∨ ∃ r w w' ok, s.workers[r]? = some w ∧
      Turn s r w w' (.write (.req r w.number w.data) l ok) ∧
      t.log = s.log ++ [⟨s.now, .worker r, .write (.req r w.number w.data) l ok⟩] ∧
      asks l t.log = asks l s.log ++ [⟨r, w.number, w.data⟩] := by
  have hsnoc {actor : Actor} {act : Act} (hlog : t.log = s.log ++ [⟨s.now, actor, act⟩]) :
      Daemon.asks l t.log = Daemon.asks l s.log ++ (act.asks l).toList := by
    rw [hlog, asks_append, asks_single]
  cases h with
  | @worker r ok w w' act hw hturn =>
      cases hask : act.asks l with
      | none =>
          refine .inl ((hsnoc rfl).trans ?_)
          simp [hask]
      | some a =>
          obtain ⟨e, hmem, ok', hact⟩ := @mem_asks l [⟨s.now, .worker r, act⟩] a (by
            rw [asks_single, hask]
            exact List.mem_singleton_self _)
          obtain rfl := List.mem_singleton.mp hmem
          dsimp only at hact
          subst hact
          obtain ⟨rfl, hnumber, hdata, -⟩ := turn_req hturn
          refine .inr ⟨a.r, w, w', ok', hw, ?_, ?_, ?_⟩
          · rw [← hnumber, ← hdata]
            exact hturn
          · rw [← hnumber, ← hdata]
            rfl
          · refine (hsnoc rfl).trans ?_
            rw [hask, ← hnumber, ← hdata]
            rfl
  | @hid u ok pc act hturn =>
      refine .inl ((hsnoc rfl).trans ?_)
      have hquiet : act.asks l = none := by
        generalize s.hid u = before at hturn
        cases hturn with
        | quiet _ _ hact => exact (hact.away l).asks
        | _ => rfl
      simp [hquiet]
  | begin => exact .inl rfl
  | outside hout => exact .inl (by rw [hout.log])

/-- A step that does not ask for the request. -/
theorem Aiming.keep {r : RequestId} {log log' : List Entry} {w w' : Worker} (h : Aiming r log w)
    (hlog : ∀ l, AskedOn l r log' → AskedOn l r log) (hdevices : w'.devices.Nodup)
    (htargets : w'.targets = w.targets) (hplanned : w.pc.Planned → w'.pc.Planned) :
    Aiming r log' w' where
  devices := hdevices
  targets := htargets ▸ h.targets
  ahead l hl hasked := h.ahead l (htargets ▸ hl) (hlog l hasked)
  fresh hpc l hasked := h.fresh (fun hbefore => hpc (hplanned hbefore)) l (hlog l hasked)

theorem AskedOn.of_eq {l : LinkId} {r : RequestId} {log log' : List Entry}
    (h : AskedOn l r log') (heq : asks l log' = asks l log) : AskedOn l r log := by
  rw [AskedOn, ← heq]
  exact h

theorem AsksOnce.own {s t : State} {r : RequestId} {w w' : Worker} {act : Act}
    (h : AsksOnce s) (hw : s.workers[r]? = some w) (hturn : Turn s r w w' act)
    (ht : t = (s.perform (.worker r) act).setWorker r w') : Aiming r t.log w' := by
  have haiming := h.aiming r w hw
  have hdevices := turn_devices hturn haiming.devices
  have hsnoc (l : LinkId) : asks l t.log = asks l s.log ++ (act.asks l).toList := by
    rw [ht, setWorker_log, perform_log, asks_append, asks_single]
  cases turn_aimed hturn haiming.devices with
  | kept hact htargets hplanned =>
      refine haiming.keep (fun l hasked => hasked.of_eq ?_) hdevices htargets hplanned
      simp [hsnoc, hact]
  | planned hpc hpc' htargets =>
      have hnone (l : LinkId) (hasked : AskedOn l r t.log) : False :=
        haiming.fresh hpc l (hasked.of_eq (by simp [hsnoc, Act.asks]))
      exact ⟨hdevices, htargets, fun l _ => hnone l, fun hnot => absurd hpc' hnot⟩
  | @asks q k b htargets hpc' =>
      have hnodup := haiming.targets
      rw [htargets, List.nodup_cons] at hnodup
      refine ⟨hdevices, hnodup.2, fun l hl hasked => ?_, fun hnot => absurd hpc' hnot⟩
      have hne : k ≠ l := fun heq => hnodup.1 (heq ▸ hl)
      refine haiming.ahead l ?_ (hasked.of_eq ?_)
      · rw [htargets]
        exact List.mem_cons_of_mem _ hl
      · simp [hsnoc, Act.asks, hne]

/-- A step of another thread does not ask for the request. -/
theorem Step.asked_others {s t : State} {e : Event} (h : Step s e t) {r : RequestId}
    (hothers : OthersLog r s t) {l : LinkId} (hasked : AskedOn l r t.log) :
    AskedOn l r s.log := by
  rcases h.asks l with hsame | ⟨q, w, -, ok, -, -, hlog, hasks⟩
  · exact hasked.of_eq hsame
  · rw [AskedOn, hasks, List.map_append] at hasked
    rcases List.mem_append.mp hasked with hold | hnew
    · exact hold
    · obtain rfl := List.mem_singleton.mp hnew
      rcases hothers with hsame | ⟨actor, act, hactor, hentry⟩
      · rw [hlog] at hsame
        simp at hsame
      · rw [hlog] at hentry
        obtain rfl := congrArg Entry.actor (List.singleton_inj.mp (List.append_cancel_left hentry))
        exact absurd rfl hactor

theorem AsksOnce.step {s t : State} {e : Event} (hissued : Issued s) (h : AsksOnce s)
    (hstep : Step s e t) : AsksOnce t where
  aiming r w hw := by
    cases hstep.moved hw with
    | own he hold hturn ht => exact h.own hold hturn ht
    | other locked hold hsame hlog =>
        subst hsame
        have haiming := h.aiming r _ hold
        exact haiming.keep (fun l => hstep.asked_others hlog) haiming.devices rfl id
    | spawned hr hnew hlog =>
        subst hnew
        have hnone (l : LinkId) (hasked : AskedOn l r t.log) : False := by
          obtain ⟨a, ha, rfl⟩ := List.mem_map.mp (hstep.asked_others hlog hasked)
          obtain ⟨w, hw, -⟩ := hissued l a ha
          exact Nat.lt_irrefl _ (hr ▸ (List.getElem?_eq_some_iff.mp hw).1)
        exact ⟨List.nodup_nil, List.nodup_nil, fun l _ => hnone l, fun _ => hnone⟩
  once l := by
    rcases hstep.asks l with hsame | ⟨r, w, w', ok, hw, hturn, -, hasks⟩
    · exact hsame ▸ h.once l
    · have haiming := h.aiming r w hw
      have hahead : ¬ AskedOn l r s.log := by
        cases turn_aimed hturn haiming.devices with
        | kept hact => simpa [Act.asks] using hact l
        | asks htargets =>
            refine haiming.ahead l ?_
            rw [htargets]
            exact List.mem_cons_self
      rw [hasks, List.map_append]
      refine List.nodup_append.mpr ⟨h.once l, by simp, fun a ha b hb heq => ?_⟩
      obtain rfl := List.mem_singleton.mp hb
      exact hahead (heq ▸ ha)

theorem asksOnce_reachable {pid : UInt32} {s : State} (h : Reach next always (start pid) s) :
    AsksOnce s :=
  h.invariant_with issued_reachable (asksOnce_start pid) fun _ _ _ hissued hs _ hnext =>
    hs.step hissued (step_cases hnext)

/-- As long as the counter did not wrap around, no two REQ frames on a link
carry the same number. -/
theorem asks_numbers_nodup {pid : UInt32} {s : State} (h : Reach next always (start pid) s)
    (hfew : taken s.log < 2 ^ 32) (l : LinkId) : ((asks l s.log).map Ask.number).Nodup := by
  have honce := (asksOnce_reachable h).once l
  refine List.pairwise_map.mpr ((List.pairwise_map.mp honce).imp_of_mem ?_)
  intro a b ha hb hne hnumber
  obtain ⟨w, hw, hwnumber, -⟩ := issued_reachable h l a ha
  obtain ⟨v, hv, hvnumber, -⟩ := issued_reachable h l b hb
  apply hne
  apply (numbered_reachable h).request hfew hw hv
  rw [hwnumber, hvnumber, hnumber]

end Passkey.Daemon
