import Passkey.Daemon.Rounds

/-!
Withdrawing a request. A CTAPHID_CANCEL sends CANCEL to the links that are
published as pending when it takes their lock, and leaves no mark for the links
that are asked later. It is final in the runs where it does not come while the
links of a round are asked and not yet published, and where no round begins
after it.
-/

namespace Passkey.Daemon

open Library

/-- An entry of the log is of this kind. -/
def Logged (P : Act → Prop) (log : List Entry) : Prop :=
  ∃ e ∈ log, P e.act

theorem Logged.append {P : Act → Prop} {log : List Entry} (h : Logged P log)
    (more : List Entry) : Logged P (log ++ more) := by
  obtain ⟨e, hmem, he⟩ := h
  exact ⟨e, List.mem_append_left _ hmem, he⟩

theorem logged_snoc {P : Act → Prop} {log : List Entry} {e : Entry} :
    Logged P (log ++ [e]) ↔ Logged P log ∨ P e.act := by
  simp [Logged, or_and_right, exists_or]

theorem Logged.step {P : Act → Prop} {s t : State} {e : Event} (h : Logged P s.log)
    (hstep : Step s e t) : Logged P t.log := by
  obtain ⟨more, hlog⟩ := hstep.log
  exact hlog ▸ h.append more

/-- A REQ frame for the request was sent on the link. -/
def Asked (r : RequestId) (l : LinkId) : List Entry → Prop :=
  Logged fun act => ∃ number data, act = .write (.req r number data) l true

/-- The worker of the request took an answer from the link, or its close
marker. -/
def Heard (r : RequestId) (number : UInt32) (l : LinkId) : List Entry → Prop :=
  Logged fun act => ∃ response, act = .take r l response ∧ Concerns number response

/-- A CANCEL frame for the request was sent on the link. -/
def Told (r : RequestId) (number : UInt32) (l : LinkId) : List Entry → Prop :=
  Logged fun act => ∃ ok, act = .write (.cancel r number) l ok

/-- A CTAPHID_CANCEL took the lock of the request's pending links. -/
def Reached (r : RequestId) : List Entry → Prop :=
  Logged fun act => act = .lock r .cancel

/-- A CTAPHID_CANCEL for the request was processed. -/
def Cancelled (r : RequestId) : List Entry → Prop :=
  Logged fun act => act = .cancelled r .cancel

/-- The links to which `fan_out` is sending CANCEL at its end. -/
def Worker.withdrawals (w : Worker) : List LinkId :=
  match w.pc with
  | .withdraw todo => todo
  | _ => []

/-- After a CTAPHID_CANCEL was processed no REQ frame goes out for the request,
and every link that was sent one has answered or is sent CANCEL. -/
structure CancelFinal (s : State) : Prop where
  silent : Each (fun before e => ∀ r number data l ok,
    e.act = .write (.req r number data) l ok → ¬ Cancelled r before) s.log
  withdrawn : ∀ (r : RequestId) (w : Worker), s.workers[r]? = some w → Cancelled r s.log →
    ∀ l, Asked r l s.log → Heard r w.number l s.log ∨ Told r w.number l s.log ∨ l ∈ w.withdrawals

/-! ### The condition -/

/-- Links of this round are asked, or will be, and are not published. -/
def Worker.unpublished (w : Worker) : Bool :=
  match w.pc with
  | .send todo => todo ≠ [] || w.pending ≠ []
  | .publish => w.pending ≠ []
  | _ => false

/-- The request whose pending links a CTAPHID_CANCEL on this thread locks next. -/
def State.cancelling (s : State) (u : ThreadId) : Option RequestId :=
  match s.hid u with
  | .lock r .cancel => some r
  | _ => none

def Entry.reaches (r : RequestId) (e : Entry) : Bool :=
  match e.act with
  | .lock q .cancel => q = r
  | _ => false

/-- A CTAPHID_CANCEL does not look at the pending links while a round is asked
and not published, and no round with targets begins after it looked. -/
def Heeded (s : State) (e : Event) : Prop :=
  match e with
  | .hid u _ => ∀ r ∈ s.cancelling u, ∀ w ∈ s.workers[r]?, ¬ w.unpublished
  | .worker r _ => ∀ w ∈ s.workers[r]?, w.entering → ¬ s.log.any (Entry.reaches r)
  | _ => True

instance (s : State) (e : Event) : Decidable (Heeded s e) :=
  match e with
  | .hid u _ => inferInstanceAs (Decidable
      (∀ r ∈ s.cancelling u, ∀ w ∈ s.workers[r]?, ¬ w.unpublished))
  | .worker r _ => inferInstanceAs (Decidable
      (∀ w ∈ s.workers[r]?, w.entering → ¬ s.log.any (Entry.reaches r)))
  | .packet .. | .uhidClose _ | .ping .. | .stall .. | .connect .. | .close _ | .remove _
  | .receive .. | .readLink _ | .endRead _ | .choose _ | .tick _ => .isTrue trivial

theorem Reached.any {r : RequestId} {log : List Entry} (h : Reached r log) :
    log.any (Entry.reaches r) = true := by
  obtain ⟨e, hmem, hact⟩ := h
  exact List.any_eq_true.mpr ⟨e, hmem, by simp [Entry.reaches, hact]⟩

/-! ### The lock of the pending links -/

/-- An entry that neither takes nor frees the lock of a request's links. -/
def Act.aside : Act → Prop
  | .lock .. | .cancelled .. => False
  | _ => True

theorem Act.Own.aside {act : Act} (h : act.Own) : act.aside := by
  cases h <;> trivial

theorem Act.Quiet.aside {act : Act} (h : act.Quiet) : act.aside := by
  cases h <;> trivial

/-- A worker goes on under the lock: its links stay published as they are. -/
def Worker.Keeps (w w' : Worker) : Prop :=
  w'.number = w.number ∧ w'.locked = w.locked ∧ (w.locked = true → w'.published = w.published)

/-- What a step does to the locks of the pending links, and to the threads
that hold them. -/
inductive LockStep (s : State) (e : Event) (t : State) : Prop where
  | aside (hlog : t.log = s.log ∨ ∃ x, t.log = s.log ++ [x] ∧ x.act.aside)
      (hhid : ∀ u r todo cause, t.hid u = .withdraw r todo cause → s.hid u = .withdraw r todo cause)
      (hworkers : ∀ (r : RequestId) (w : Worker), s.workers[r]? = some w →
        ∃ w', t.workers[r]? = some w' ∧ w.Keeps w')
  | lock {u : ThreadId} {ok : Bool} {r : RequestId} {cause : Cause} {w : Worker}
      (he : e = .hid u ok) (hu : s.hid u = .lock r cause) (hw : s.workers[r]? = some w)
      (hfree : w.locked = false)
      (ht : t = (s.perform (.hid u) (.lock r cause)).setHid u (.withdraw r w.published cause))
  | tell {u : ThreadId} {r : RequestId} {cause : Cause} {w : Worker} {l : LinkId}
      {rest : List LinkId} {ok : Bool} (hu : s.hid u = .withdraw r (l :: rest) cause)
      (hw : s.workers[r]? = some w)
      (ht : t = (s.perform (.hid u) (.write (.cancel r w.number) l ok)).setHid u
        (.withdraw r rest cause))
  | unlock {u : ThreadId} {r : RequestId} {cause : Cause} (hu : s.hid u = .withdraw r [] cause)
      (ht : t = (s.perform (.hid u) (.cancelled r cause)).setHid u cause.next)

theorem poll_keeps (w : Worker) (l : LinkId) (rest : List LinkId) (heard : Bool)
    (response : Option (UInt32 × Bytes)) : w.Keeps (w.poll l rest heard response) := by
  unfold Worker.poll
  repeat' split
  all_goals exact ⟨rfl, rfl, fun _ => rfl⟩

theorem judge_keeps (w : Worker) (device : LinkId → Text) : w.Keeps (w.judge device).1 := by
  unfold Worker.judge
  repeat' split
  all_goals exact ⟨rfl, rfl, fun _ => rfl⟩

theorem turn_keeps {s : State} {r : RequestId} {w w' : Worker} {act : Act}
    (h : Turn s r w w' act) : w.Keeps w' := by
  cases h with
  | publish _ hfree => exact ⟨rfl, rfl, fun hlocked => by simp [hfree] at hlocked⟩
  | clear _ hfree => exact ⟨rfl, rfl, fun hlocked => by simp [hfree] at hlocked⟩
  | take => exact poll_keeps ..
  | judge => exact judge_keeps ..
  | _ => exact ⟨rfl, rfl, fun _ => rfl⟩

/-- A thread that starts to withdraw has taken the lock. -/
theorem setHid_withdraw {s : State} {u v : ThreadId} {pc : HidPc} {r : RequestId}
    {todo : List LinkId} {cause : Cause} (hpc : pc.target = none)
    (h : (s.setHid u pc).hid v = .withdraw r todo cause) : s.hid v = .withdraw r todo cause := by
  rw [setHid_hid] at h
  split at h
  · rw [h] at hpc
    cases hpc
  · exact h

theorem Step.lock {s t : State} {e : Event} (h : Step s e t) : LockStep s e t := by
  have hkeep (w : Worker) : w.Keeps w := ⟨rfl, rfl, fun _ => rfl⟩
  cases h with
  | @worker q ok w w' act hw hturn =>
      have hown := turn_own hturn
      refine .aside (.inr ⟨_, rfl, hown.aside⟩) (fun u r todo cause hu => ?_) fun r v hv => ?_
      · rwa [setWorker_hid, perform_hid] at hu
      · have hworkers := hown.workers s (.worker q)
        rw [setWorker_workers, hworkers]
        by_cases hq : q = r
        · subst hq
          obtain rfl := Option.some.inj (hw.symm.trans hv)
          have hlt := (List.getElem?_eq_some_iff.mp hw).1
          exact ⟨w', List.getElem?_set_self hlt, turn_keeps hturn⟩
        · exact ⟨v, by rw [List.getElem?_set_ne hq, hv], hkeep v⟩
  | @hid u ok pc act hturn =>
      have hlog (hact : act.aside) : (∃ x, ((s.perform (.hid u) act).setHid u pc).log =
          s.log ++ [x] ∧ x.act.aside) := ⟨⟨s.now, .hid u, act⟩, rfl, hact⟩
      have hhid (hpc : pc.target = none) : ∀ v r todo cause,
          ((s.perform (.hid u) act).setHid u pc).hid v = .withdraw r todo cause →
            s.hid v = .withdraw r todo cause := by
        intro v r todo cause hv
        simpa using setHid_withdraw hpc hv
      generalize hu : s.hid u = before at hturn
      cases hturn with
      | quiet hpc hpc' hact =>
          refine .aside (.inr (hlog hact.aside)) (hhid hpc') fun r w hw => ⟨w, ?_, hkeep w⟩
          rw [setHid_workers, hact.workers, hw]
      | @cancel channel cause r w =>
          refine .aside (.inr (hlog trivial)) (fun v q todo cause hv => ?_)
            fun r w hw => ⟨w, hw, hkeep w⟩
          rw [setHid_hid] at hv
          split at hv
          · cases hv
          · exact hv
      | abandon =>
          refine .aside (.inr (hlog trivial)) (fun v q todo cause hv => ?_)
            fun r w hw => ⟨w, hw, hkeep w⟩
          rw [setHid_hid] at hv
          split at hv
          · cases hv
          · exact hv
      | lock hw hfree => exact .lock rfl hu hw hfree rfl
      | withdraw hw => exact .tell hu hw rfl
      | withdrawn => exact .unlock hu rfl
      | accept hbusy =>
          refine .aside (.inr (hlog trivial)) (hhid rfl) fun r w hw => ⟨w, ?_, hkeep w⟩
          have hlt := (List.getElem?_eq_some_iff.mp hw).1
          exact (List.getElem?_append_left hlt).trans hw
  | @begin _ u pc hidle hpc =>
      exact .aside (.inl rfl) (fun v r todo cause hv => setHid_withdraw (target_opening hpc) hv)
        fun r w hw => ⟨w, hw, hkeep w⟩
  | outside hout =>
      refine .aside (.inl hout.log) (fun u r todo cause hu => ?_) fun r w hw => ⟨w, ?_, hkeep w⟩
      · rwa [hout.hid] at hu
      · rwa [hout.workers]

/-! ### Every link that was asked is accounted for -/

/-- The links that `fan_out` has asked and not yet heard from or withdrawn
from. -/
def Worker.outstanding (w : Worker) : List LinkId :=
  match w.pc with
  | .send _ | .publish | .check | .sweep .. | .beat | .clear => w.pending
  | .withdraw todo => todo
  | _ => []

/-- The pending links are published. -/
def Worker.polling (w : Worker) : Bool :=
  match w.pc with
  | .check | .sweep .. | .beat | .clear => true
  | _ => false

/-- In every run, each link that was asked is accounted for, and the thread
that holds the lock of the pending links has told all that are published, or
will. -/
structure Accounted (s : State) : Prop where
  unborn : ∀ r l, Asked r l s.log → r < s.workers.length
  asked : ∀ (r : RequestId) (w : Worker), s.workers[r]? = some w → ∀ l, Asked r l s.log →
    Heard r w.number l s.log ∨ Told r w.number l s.log ∨ l ∈ w.outstanding
  published : ∀ (r : RequestId) (w : Worker), s.workers[r]? = some w → w.polling →
    ∀ l ∈ w.pending, l ∈ w.published
  holder : ∀ u r todo cause, s.hid u = .withdraw r todo cause →
    ∃ w, s.workers[r]? = some w ∧ w.locked = true ∧
      ∀ l ∈ w.published, Told r w.number l s.log ∨ l ∈ todo
  alone : ∀ u v r todo todo' cause cause', s.hid u = .withdraw r todo cause →
    s.hid v = .withdraw r todo' cause' → u = v

theorem accounted_start (pid : UInt32) : Accounted (start pid) :=
  ⟨by simp [start, Asked, Logged], by simp [start], by simp [start], by simp [start],
    by simp [start]⟩

/-- A REQ frame is sent by the worker of its request, to a link that becomes
pending. -/
theorem Step.asked {s t : State} {e : Event} (h : Step s e t) {r : RequestId} {l : LinkId}
    (hasked : Asked r l t.log) : Asked r l s.log ∨ ∃ w rest, s.workers[r]? = some w ∧
      t.workers[r]? = some {w with pending := w.pending ++ [l], pc := .send rest} := by
  cases h with
  | @worker q ok w w' act hw hturn =>
      rcases logged_snoc.mp hasked with hold | ⟨number, data, rfl⟩
      · exact .inl hold
      · obtain ⟨rfl, -, -, rest, -, rfl⟩ := turn_req hturn
        have hlt := (List.getElem?_eq_some_iff.mp hw).1
        exact .inr ⟨w, rest, hw, List.getElem?_set_self hlt⟩
  | @hid u ok pc act hturn =>
      rcases logged_snoc.mp hasked with hold | ⟨number, data, rfl⟩
      · exact .inl hold
      · generalize s.hid u = before at hturn
        cases hturn with
        | quiet _ _ hact => cases hact
  | begin => exact .inl hasked
  | outside hout => exact .inl (hout.log ▸ hasked)

/-- A poll drops a link from the pending ones only where it heard its answer or
its close marker. -/
theorem poll_pending {w : Worker} {l k : LinkId} {rest : List LinkId} {heard : Bool}
    {response : UInt32 × Bytes} (hk : k ∈ w.pending) :
    k ∈ (w.poll l rest heard (some response)).pending ∨
      k = l ∧ Concerns w.number response := by
  obtain ⟨number, payload⟩ := response
  have hfilter : k ∈ w.pending.filter (· ≠ l) ∨ k = l := by
    by_cases hkl : k = l
    · exact .inr hkl
    · exact .inl (List.mem_filter.mpr ⟨hk, by simpa using hkl⟩)
  simp only [Worker.poll]
  split
  · rename_i hmarker
    obtain ⟨rfl, rfl⟩ := hmarker
    exact hfilter.imp_right fun heq => ⟨heq, .inr rfl⟩
  · split
    · exact .inl hk
    · rename_i hnumber
      have hmine := Decidable.not_not.mp hnumber
      repeat' split
      all_goals exact hfilter.imp_right fun heq => ⟨heq, .inl hmine⟩

/-- After a poll the pending links were pending before. -/
theorem poll_subset {w : Worker} {l k : LinkId} {rest : List LinkId} {heard : Bool}
    {response : Option (UInt32 × Bytes)} (hk : k ∈ (w.poll l rest heard response).pending) :
    k ∈ w.pending := by
  unfold Worker.poll at hk
  repeat' split at hk
  all_goals first | exact hk | exact List.mem_of_mem_filter hk

theorem poll_polling (w : Worker) (l : LinkId) (rest : List LinkId) (heard : Bool)
    (response : Option (UInt32 × Bytes)) : (w.poll l rest heard response).polling = true ∧
      (w.poll l rest heard response).outstanding = (w.poll l rest heard response).pending := by
  unfold Worker.poll
  repeat' split
  all_goals exact ⟨rfl, rfl⟩

theorem judge_outstanding (w : Worker) (device : LinkId → Text) :
    (w.judge device).1.outstanding = [] ∧ (w.judge device).1.polling = false := by
  unfold Worker.judge
  repeat' split
  all_goals exact ⟨rfl, rfl⟩

/-- A worker is done with a link when it heard from it or told it. -/
theorem turn_outstanding {s : State} {r : RequestId} {w w' : Worker} {act : Act} {l : LinkId}
    (h : Turn s r w w' act) (hl : l ∈ w.outstanding) :
    l ∈ w'.outstanding ∨ (∃ ok, act = .write (.cancel r w.number) l ok) ∨
      ∃ response, act = .take r l response ∧ Concerns w.number response := by
  cases h with
  | @send k rest ok hpc =>
      have hpending : l ∈ w.pending := by simpa [Worker.outstanding, hpc] using hl
      refine .inl ?_
      cases ok with
      | true => exact List.mem_append_left _ hpending
      | false => exact hpending
  | @take k rest heard response queue hpc hqueue =>
      have hpending : l ∈ w.pending := by simpa [Worker.outstanding, hpc] using hl
      rcases @poll_pending w k l rest heard response hpending with hstill | ⟨rfl, hheard⟩
      · exact .inl ((poll_polling ..).2 ▸ hstill)
      · exact .inr (.inr ⟨response, rfl, hheard⟩)
  | @withdraw k rest ok hpc =>
      have hmem : l ∈ k :: rest := by simpa [Worker.outstanding, hpc] using hl
      rcases List.mem_cons.mp hmem with rfl | hrest
      · exact .inr (.inl ⟨ok, rfl⟩)
      · exact .inl hrest
  | @swept heard hpc =>
      have hpending : l ∈ w.pending := by simpa [Worker.outstanding, hpc] using hl
      cases heard <;> exact .inl hpending
  | allSent hpc => exact .inl (by simpa [Worker.outstanding, hpc] using hl)
  | publish hpc => exact .inl (by simpa [Worker.outstanding, hpc] using hl)
  | goOn hpc => exact .inl (by simpa [Worker.outstanding, hpc] using hl)
  | stop hpc => exact .inl (by simpa [Worker.outstanding, hpc] using hl)
  | silence hpc => exact .inl (by simpa [Worker.outstanding, hpc] using hl)
  | beat hpc => exact .inl (by simpa [Worker.outstanding, hpc] using hl)
  | noBeat hpc => exact .inl (by simpa [Worker.outstanding, hpc] using hl)
  | clear hpc => exact .inl (by simpa [Worker.outstanding, hpc] using hl)
  | _ => simp [Worker.outstanding, *] at hl

/-- What a worker polls is published when it begins to, and shrinks. -/
theorem turn_published {s : State} {r : RequestId} {w w' : Worker} {act : Act}
    (h : Turn s r w w' act) (hbefore : w.polling → ∀ l ∈ w.pending, l ∈ w.published)
    (hpolling : w'.polling) : ∀ l ∈ w'.pending, l ∈ w'.published := by
  cases h with
  | publish => exact fun l hl => hl
  | @take k rest heard response queue hpc hqueue =>
      intro l hl
      have hpublished := hbefore (by simp [Worker.polling, hpc]) l (poll_subset hl)
      unfold Worker.poll
      repeat' split
      all_goals exact hpublished
  | judge => simp [(judge_outstanding ..).2] at hpolling
  | goOn hpc => exact hbefore (by simp [Worker.polling, hpc])
  | stop hpc => exact hbefore (by simp [Worker.polling, hpc])
  | swept hpc => exact hbefore (by simp [Worker.polling, hpc])
  | silence hpc => exact hbefore (by simp [Worker.polling, hpc])
  | beat hpc => exact hbefore (by simp [Worker.polling, hpc])
  | noBeat hpc => exact hbefore (by simp [Worker.polling, hpc])
  | emptyRound hpc => simp [Worker.polling, hpc] at hpolling
  | _ => cases hpolling

theorem Accounted.unborn_step {s t : State} {e : Event} (h : Accounted s) (hstep : Step s e t)
    {r : RequestId} {l : LinkId} (hasked : Asked r l t.log) : r < t.workers.length := by
  rcases hstep.asked hasked with hold | ⟨w, rest, hw, -⟩
  · exact Nat.lt_of_lt_of_le (h.unborn r l hold) hstep.slot.length_le
  · have hlt : r < s.workers.length := (List.getElem?_eq_some_iff.mp hw).1
    exact Nat.lt_of_lt_of_le hlt hstep.slot.length_le

theorem Accounted.asked_step {s t : State} {e : Event} (h : Accounted s) (hstep : Step s e t)
    {r : RequestId} {w' : Worker} (hw' : t.workers[r]? = some w') {l : LinkId}
    (hasked : Asked r l t.log) :
    Heard r w'.number l t.log ∨ Told r w'.number l t.log ∨ l ∈ w'.outstanding := by
  rcases hstep.asked hasked with hold | ⟨w, rest, hw, hsent⟩
  · cases hstep.moved hw' with
    | @own ok w act he hw hturn ht =>
        have hnumber : w'.number = w.number := (turn_keeps hturn).1
        rw [hnumber]
        rcases h.asked r w hw l hold with hheard | htold | hopen
        · exact .inl (hheard.step hstep)
        · exact .inr (.inl (htold.step hstep))
        · subst ht
          rcases turn_outstanding hturn hopen with hstill | htold | hheard
          · exact .inr (.inr hstill)
          · exact .inr (.inl (logged_snoc.mpr (.inr htold)))
          · exact .inl (logged_snoc.mpr (.inr hheard))
    | other locked hw hsame =>
        subst hsame
        exact (h.asked r _ hw l hold).imp (·.step hstep) (.imp_left (·.step hstep))
    | spawned hr => exact absurd (h.unborn r l hold) (hr ▸ Nat.lt_irrefl _)
  · obtain rfl := Option.some.inj (hsent.symm.trans hw')
    exact .inr (.inr (List.mem_append_right _ (List.mem_singleton_self l)))

theorem Accounted.published_step {s t : State} {e : Event} (h : Accounted s) (hstep : Step s e t)
    {r : RequestId} {w' : Worker} (hw' : t.workers[r]? = some w') (hpolling : w'.polling) :
    ∀ l ∈ w'.pending, l ∈ w'.published := by
  cases hstep.moved hw' with
  | own he hw hturn ht => exact turn_published hturn (h.published r _ hw) hpolling
  | @other w locked hw hsame =>
      subst hsame
      exact h.published r w hw hpolling
  | spawned hr hnew =>
      subst hnew
      cases hpolling

theorem setLocked_same {s : State} {r : RequestId} {w : Worker} (locked : Bool)
    (hw : s.workers[r]? = some w) :
    (s.setLocked r locked).workers[r]? = some {w with locked := locked} := by
  simp [State.setLocked, hw]

theorem setLocked_other {s : State} {r q : RequestId} (locked : Bool) (hq : q ≠ r) :
    (s.setLocked q locked).workers[r]? = s.workers[r]? := by
  simp [State.setLocked, hq]

theorem Accounted.holder_step {s t : State} {e : Event} (h : Accounted s) (hstep : Step s e t)
    {u : ThreadId} {r : RequestId} {todo : List LinkId} {cause : Cause}
    (hu : t.hid u = .withdraw r todo cause) :
    ∃ w, t.workers[r]? = some w ∧ w.locked = true ∧
      ∀ l ∈ w.published, Told r w.number l t.log ∨ l ∈ todo := by
  -- A thread that held the lock before, of a request that this step leaves alone.
  have hkept (hbefore : s.hid u = .withdraw r todo cause)
      (hworker : t.workers[r]? = s.workers[r]?) : ∃ w, t.workers[r]? = some w ∧
        w.locked = true ∧ ∀ l ∈ w.published, Told r w.number l t.log ∨ l ∈ todo := by
    obtain ⟨w, hw, hlocked, htodo⟩ := h.holder u r todo cause hbefore
    exact ⟨w, hworker.trans hw, hlocked, fun l hl => (htodo l hl).imp_left (·.step hstep)⟩
  cases hstep.lock with
  | aside _ hhid hworkers =>
      obtain ⟨w, hw, hlocked, htodo⟩ := h.holder u r todo cause (hhid u r todo cause hu)
      obtain ⟨w', hw', hnumber, hsame, hpublished⟩ := hworkers r w hw
      refine ⟨w', hw', hsame.trans hlocked, ?_⟩
      rw [hpublished hlocked, hnumber]
      exact fun l hl => (htodo l hl).imp_left (·.step hstep)
  | @lock v ok q cause' w he hv hw hfree ht =>
      rw [ht, setHid_hid] at hu
      split at hu
      · cases hu
        exact ⟨{w with locked := true}, ht ▸ setLocked_same true hw, rfl, fun l hl => .inr hl⟩
      · rw [perform_hid] at hu
        have hother : q ≠ r := by
          rintro rfl
          obtain ⟨v', hv', hlocked, -⟩ := h.holder u q todo cause hu
          obtain rfl := Option.some.inj (hw.symm.trans hv')
          simp [hfree] at hlocked
        exact hkept hu (ht ▸ setLocked_other true hother)
  | @tell v q cause' w l rest ok hv hw ht =>
      rw [ht, setHid_hid] at hu
      split at hu
      · cases hu
        obtain ⟨w', hw', hlocked, htodo⟩ := h.holder v r (l :: todo) cause hv
        obtain rfl := Option.some.inj (hw.symm.trans hw')
        refine ⟨w, ht ▸ hw, hlocked, fun k hk => ?_⟩
        rcases htodo k hk with htold | hmem
        · exact .inl (htold.step hstep)
        · rcases List.mem_cons.mp hmem with rfl | hrest
          · exact .inl (ht ▸ logged_snoc.mpr (.inr ⟨ok, rfl⟩))
          · exact .inr hrest
      · rw [perform_hid] at hu
        exact hkept hu (ht ▸ rfl)
  | @unlock v q cause' hv ht =>
      rw [ht] at hu
      have hbefore : s.hid u = .withdraw r todo cause := by
        simpa using setHid_withdraw (target_next cause') hu
      have hother : q ≠ r := by
        rintro rfl
        obtain rfl := h.alone u v q todo [] cause cause' hbefore hv
        rw [setHid_hid, if_pos rfl] at hu
        have htarget := target_next cause'
        rw [hu] at htarget
        cases htarget
      exact hkept hbefore (ht ▸ setLocked_other false hother)

theorem Accounted.alone_step {s t : State} {e : Event} (h : Accounted s) (hstep : Step s e t)
    {u v : ThreadId} {r : RequestId} {todo todo' : List LinkId} {cause cause' : Cause}
    (hu : t.hid u = .withdraw r todo cause) (hv : t.hid v = .withdraw r todo' cause') :
    u = v := by
  cases hstep.lock with
  | aside _ hhid =>
      exact h.alone u v r todo todo' cause cause' (hhid _ _ _ _ hu) (hhid _ _ _ _ hv)
  | @lock x ok q cause'' w he hx hw hfree ht =>
      -- The thread that just took the lock found it free.
      have hfound {y : ThreadId} {todo : List LinkId} {cause : Cause}
          (hy : s.hid y = .withdraw q todo cause) : False := by
        obtain ⟨w', hw', hlocked, -⟩ := h.holder y q todo cause hy
        obtain rfl := Option.some.inj (hw.symm.trans hw')
        simp [hfree] at hlocked
      rw [ht, setHid_hid, perform_hid] at hu hv
      split at hu
      · cases hu
        split at hv
        · simp [*]
        · exact (hfound hv).elim
      · split at hv
        · cases hv
          exact (hfound hu).elim
        · exact h.alone u v r todo todo' cause cause' hu hv
  | @tell x q cause'' w l rest ok hx hw ht =>
      rw [ht, setHid_hid, perform_hid] at hu hv
      split at hu
      · rename_i hux
        cases hu
        split at hv
        · simp [*]
        · exact hux ▸ h.alone x v r (l :: todo) todo' cause cause' hx hv
      · split at hv
        · rename_i hvx
          cases hv
          exact hvx ▸ h.alone u x r todo (l :: todo') cause cause' hu hx
        · exact h.alone u v r todo todo' cause cause' hu hv
  | unlock hx ht =>
      rw [ht] at hu hv
      have hbeforeU := setHid_withdraw (target_next _) hu
      have hbeforeV := setHid_withdraw (target_next _) hv
      rw [perform_hid] at hbeforeU hbeforeV
      exact h.alone u v r todo todo' cause cause' hbeforeU hbeforeV

theorem Accounted.step {s t : State} {e : Event} (h : Accounted s) (hstep : Step s e t) :
    Accounted t :=
  ⟨fun _ _ => h.unborn_step hstep, fun _ _ hw _ => h.asked_step hstep hw,
    fun _ _ => h.published_step hstep, fun _ _ _ _ => h.holder_step hstep,
    fun _ _ _ _ _ _ _ => h.alone_step hstep⟩

theorem accounted_reachable {pid : UInt32} {s : State} (h : Reach next always (start pid) s) :
    Accounted s :=
  h.invariant (accounted_start pid) fun _ _ _ ht _ hnext => ht.step (step_cases hnext)

/-! ### Under the condition -/

/-- A request whose pending links a CTAPHID_CANCEL has locked asks no more
links, and those it still waits for when the cancel is done are told. -/
structure Heeding (s : State) : Prop where
  holder : ∀ u r todo, s.hid u = .withdraw r todo .cancel → Reached r s.log
  reached : ∀ r, Cancelled r s.log → Reached r s.log
  still : ∀ (r : RequestId) (w : Worker), s.workers[r]? = some w → Reached r s.log →
    w.unpublished = false
  told : ∀ (r : RequestId) (w : Worker), s.workers[r]? = some w → Cancelled r s.log →
    ∀ l ∈ w.outstanding, Told r w.number l s.log ∨ l ∈ w.withdrawals
  silent : Each (fun before e => ∀ r number data l ok,
    e.act = .write (.req r number data) l ok → ¬ Cancelled r before) s.log

theorem heeding_start (pid : UInt32) : Heeding (start pid) :=
  ⟨by simp [start], by simp [start, Cancelled, Logged], by simp [start], by simp [start], .nil⟩

theorem LockStep.reached {s t : State} {e : Event} (h : LockStep s e t) {r : RequestId}
    (hreached : Reached r t.log) : Reached r s.log ∨ ∃ u ok w, e = .hid u ok ∧
      s.hid u = .lock r .cancel ∧ s.workers[r]? = some w ∧
        t.workers[r]? = some {w with locked := true} := by
  cases h with
  | aside hlog =>
      rcases hlog with hsame | ⟨x, hnew, haside⟩
      · exact .inl (hsame ▸ hreached)
      · refine .inl ((logged_snoc.mp (hnew ▸ hreached)).resolve_right fun hact => ?_)
        rw [hact] at haside
        exact haside
  | @lock u ok q cause w he hu hw hfree ht =>
      subst ht
      rcases logged_snoc.mp hreached with hold | hact
      · exact .inl hold
      · cases hact
        exact .inr ⟨u, ok, w, he, hu, hw, setLocked_same true hw⟩
  | tell hu hw ht =>
      subst ht
      exact .inl ((logged_snoc.mp hreached).resolve_right (by simp))
  | unlock hu ht =>
      subst ht
      exact .inl ((logged_snoc.mp hreached).resolve_right (by simp))

theorem LockStep.cancelled {s t : State} {e : Event} (h : LockStep s e t) {r : RequestId}
    (hcancelled : Cancelled r t.log) : Cancelled r s.log ∨ ∃ u,
      s.hid u = .withdraw r [] .cancel ∧
        t = (s.perform (.hid u) (.cancelled r .cancel)).setHid u .idle := by
  cases h with
  | aside hlog =>
      rcases hlog with hsame | ⟨x, hnew, haside⟩
      · exact .inl (hsame ▸ hcancelled)
      · refine .inl ((logged_snoc.mp (hnew ▸ hcancelled)).resolve_right fun hact => ?_)
        rw [hact] at haside
        exact haside
  | lock he hu hw hfree ht =>
      subst ht
      exact .inl ((logged_snoc.mp hcancelled).resolve_right (by simp))
  | tell hu hw ht =>
      subst ht
      exact .inl ((logged_snoc.mp hcancelled).resolve_right (by simp))
  | @unlock u q cause hu ht =>
      subst ht
      rcases logged_snoc.mp hcancelled with hold | hact
      · exact .inl hold
      · cases hact
        exact .inr ⟨u, hu, rfl⟩

theorem Heeding.holder_step {s t : State} {e : Event} (h : Heeding s) (hstep : Step s e t)
    {u : ThreadId} {r : RequestId} {todo : List LinkId}
    (hu : t.hid u = .withdraw r todo .cancel) : Reached r t.log := by
  have hkept {todo : List LinkId} (hbefore : s.hid u = .withdraw r todo .cancel) :
      Reached r t.log := (h.holder u r todo hbefore).step hstep
  cases hstep.lock with
  | aside _ hhid => exact hkept (hhid _ _ _ _ hu)
  | lock he hv hw hfree ht =>
      rw [ht, setHid_hid] at hu
      split at hu
      · cases hu
        exact ht ▸ logged_snoc.mpr (.inr rfl)
      · exact hkept (by simpa using hu)
  | tell hv hw ht =>
      rw [ht, setHid_hid] at hu
      split at hu
      · rename_i huv
        cases hu
        exact hkept (huv ▸ hv)
      · exact hkept (by simpa using hu)
  | unlock hv ht =>
      rw [ht] at hu
      exact hkept (by simpa using setHid_withdraw (target_next _) hu)

theorem Heeding.reached_step {s t : State} {e : Event} (h : Heeding s) (hstep : Step s e t)
    {r : RequestId} (hcancelled : Cancelled r t.log) : Reached r t.log := by
  rcases hstep.lock.cancelled hcancelled with hold | ⟨u, hu, -⟩
  · exact (h.reached r hold).step hstep
  · exact (h.holder u r [] hu).step hstep

theorem poll_unpublished (w : Worker) (l : LinkId) (rest : List LinkId) (heard : Bool)
    (response : Option (UInt32 × Bytes)) :
    (w.poll l rest heard response).unpublished = false := by
  unfold Worker.poll
  repeat' split
  all_goals rfl

theorem judge_unpublished (w : Worker) (device : LinkId → Text) :
    (w.judge device).1.unpublished = false := by
  unfold Worker.judge
  repeat' split
  all_goals rfl

/-- Links are asked only in a round that was entered. -/
theorem turn_unpublished {s : State} {r : RequestId} {w w' : Worker} {act : Act}
    (h : Turn s r w w' act) (hafter : w'.unpublished = true) :
    w.unpublished = true ∨ w.entering = true := by
  cases h with
  | @enter targets rest hpc hrounds htargets =>
      refine .inr ?_
      cases targets with
      | nil => exact absurd rfl htargets
      | cons => simp [Worker.entering, hpc, hrounds]
  | send hpc => exact .inl (by simp [Worker.unpublished, hpc])
  | allSent hpc =>
      refine .inl ?_
      simpa [Worker.unpublished, hpc] using hafter
  | emptyRound hpc => simp [Worker.unpublished, hpc] at hafter
  | take => simp [poll_unpublished] at hafter
  | judge => simp [judge_unpublished] at hafter
  | @swept heard => cases heard <;> cases hafter
  | _ => cases hafter

theorem Heeding.still_step {s t : State} {e : Event} (h : Heeding s) (hok : Heeded s e)
    (hstep : Step s e t) {r : RequestId} {w' : Worker} (hw' : t.workers[r]? = some w')
    (hreached : Reached r t.log) : w'.unpublished = false := by
  rcases hstep.lock.reached hreached with hold | ⟨u, ok, w, he, hu, hw, hlocked⟩
  · cases hstep.moved hw' with
    | @own ok w act he hw hturn ht =>
        by_contra hafter
        rw [Bool.not_eq_false] at hafter
        rcases turn_unpublished hturn hafter with hbefore | hentering
        · simp [h.still r w hw hold] at hbefore
        · subst he
          exact hok w hw hentering hold.any
    | @other w locked hw hsame =>
        subst hsame
        exact h.still r w hw hold
    | spawned hr hnew =>
        subst hnew
        rfl
  · subst he
    obtain rfl := Option.some.inj (hlocked.symm.trans hw')
    exact Bool.eq_false_iff.mpr (hok r (by simp [State.cancelling, hu]) w hw)

/-- Links become outstanding only while a round is asked. -/
theorem turn_outstanding_old {s : State} {r : RequestId} {w w' : Worker} {act : Act} {l : LinkId}
    (h : Turn s r w w' act) (hl : l ∈ w'.outstanding) :
    l ∈ w'.withdrawals ∨ (l ∈ w.outstanding ∧ w.withdrawals = []) ∨ w.unpublished = true := by
  cases h with
  | send hpc => exact .inr (.inr (by simp [Worker.unpublished, hpc]))
  | clear => exact .inl hl
  | withdraw => exact .inl hl
  | @take k rest heard response queue hpc =>
      have hpending : l ∈ w.pending := poll_subset ((poll_polling ..).2 ▸ hl)
      exact .inr (.inl (by simpa [Worker.outstanding, Worker.withdrawals, hpc] using hpending))
  | @swept heard hpc =>
      have hpending : l ∈ w.pending := by cases heard <;> exact hl
      exact .inr (.inl (by simpa [Worker.outstanding, Worker.withdrawals, hpc] using hpending))
  | judge => simp [(judge_outstanding ..).1] at hl
  | allSent hpc =>
      exact .inr (.inl (by simpa [Worker.outstanding, Worker.withdrawals, hpc] using hl))
  | publish hpc =>
      exact .inr (.inl (by simpa [Worker.outstanding, Worker.withdrawals, hpc] using hl))
  | goOn hpc => exact .inr (.inl (by simpa [Worker.outstanding, Worker.withdrawals, hpc] using hl))
  | stop hpc => exact .inr (.inl (by simpa [Worker.outstanding, Worker.withdrawals, hpc] using hl))
  | silence hpc =>
      exact .inr (.inl (by simpa [Worker.outstanding, Worker.withdrawals, hpc] using hl))
  | beat hpc => exact .inr (.inl (by simpa [Worker.outstanding, Worker.withdrawals, hpc] using hl))
  | noBeat hpc =>
      exact .inr (.inl (by simpa [Worker.outstanding, Worker.withdrawals, hpc] using hl))
  | emptyRound hpc => simp [Worker.outstanding, hpc] at hl
  | enter => simp [Worker.outstanding] at hl
  | _ => cases hl

/-- Outside a round that is being asked, what is outstanding is published or
withdrawn by the worker itself. -/
theorem outstanding_published {w : Worker} {l : LinkId} (hstill : w.unpublished = false)
    (hpublished : w.polling → ∀ l ∈ w.pending, l ∈ w.published) (hl : l ∈ w.outstanding) :
    l ∈ w.published ∨ l ∈ w.withdrawals := by
  unfold Worker.outstanding at hl
  split at hl
  · rename_i hpc
    simp [Worker.unpublished, hpc] at hstill
    simp [hstill] at hl
  · rename_i hpc
    simp [Worker.unpublished, hpc] at hstill
    simp [hstill] at hl
  · rename_i hpc
    exact .inl (hpublished (by simp [Worker.polling, hpc]) l hl)
  · rename_i hpc
    exact .inl (hpublished (by simp [Worker.polling, hpc]) l hl)
  · rename_i hpc
    exact .inl (hpublished (by simp [Worker.polling, hpc]) l hl)
  · rename_i hpc
    exact .inl (hpublished (by simp [Worker.polling, hpc]) l hl)
  · rename_i hpc
    exact .inr (by simpa [Worker.withdrawals, hpc] using hl)
  · cases hl

theorem Heeding.told_step {s t : State} {e : Event} (hacc : Accounted s) (h : Heeding s)
    (hstep : Step s e t) {r : RequestId} {w' : Worker} (hw' : t.workers[r]? = some w')
    (hcancelled : Cancelled r t.log) {l : LinkId} (hl : l ∈ w'.outstanding) :
    Told r w'.number l t.log ∨ l ∈ w'.withdrawals := by
  rcases hstep.lock.cancelled hcancelled with hold | ⟨u, hu, ht⟩
  · cases hstep.moved hw' with
    | @own ok w act he hw hturn ht =>
        have hnumber : w'.number = w.number := (turn_keeps hturn).1
        rcases turn_outstanding_old hturn hl with hown | ⟨hbefore, hnone⟩ | hasking
        · exact .inr hown
        · have htold := (h.told r w hw hold l hbefore).resolve_right (by simp [hnone])
          exact .inl (hnumber ▸ htold.step hstep)
        · simp [h.still r w hw (h.reached r hold)] at hasking
    | @other w locked hw hsame =>
        subst hsame
        exact (h.told r w hw hold l hl).imp_left (·.step hstep)
    | spawned hr hnew =>
        subst hnew
        cases hl
  · obtain ⟨w, hw, -, hall⟩ := hacc.holder u r [] .cancel hu
    have hw'' : t.workers[r]? = some {w with locked := false} := ht ▸ setLocked_same false hw
    obtain rfl := Option.some.inj (hw''.symm.trans hw')
    have hstill := h.still r w hw (h.holder u r [] hu)
    refine (outstanding_published hstill (hacc.published r w hw) hl).imp_left fun hmem => ?_
    exact ((hall l hmem).resolve_right (by simp)).step hstep

theorem Heeding.silent_step {s t : State} {e : Event} (h : Heeding s) (hstep : Step s e t) :
    Each (fun before e => ∀ r number data l ok,
      e.act = .write (.req r number data) l ok → ¬ Cancelled r before) t.log := by
  rcases hstep.req with hsame | ⟨x, hlog, -, hreq⟩
  · exact hsame ▸ h.silent
  · rw [hlog]
    refine h.silent.snoc fun r number data l ok hact hcancelled => ?_
    obtain ⟨w, rest, hw, -, -, hpc⟩ := hreq r number data l ok hact
    have hstill := h.still r w hw (h.reached r hcancelled)
    simp [Worker.unpublished, hpc] at hstill

theorem Heeding.step {s t : State} {e : Event} (hacc : Accounted s) (h : Heeding s)
    (hok : Heeded s e) (hstep : Step s e t) : Heeding t :=
  ⟨fun _ _ _ => h.holder_step hstep, fun _ => h.reached_step hstep,
    fun _ _ => h.still_step hok hstep, fun _ _ hw hcancelled _ => h.told_step hacc hstep hw hcancelled,
    h.silent_step hstep⟩

/-- In every run in which no CTAPHID_CANCEL comes while a round is asked and
not published, nor before a round with targets, a cancel that was processed is
final. -/
theorem cancel_final {pid : UInt32} {s : State} (h : Reach next Heeded (start pid) s) :
    CancelFinal s := by
  have hheeding : Heeding s :=
    h.invariant_with accounted_reachable (heeding_start pid)
      fun _ _ _ hacc ht hok hnext => ht.step hacc hok (step_cases hnext)
  have hacc := accounted_reachable h.weaken
  refine ⟨hheeding.silent, fun r w hw hcancelled l hasked => ?_⟩
  rcases hacc.asked r w hw l hasked with hheard | htold | hopen
  · exact .inl hheard
  · exact .inr (.inl htold)
  · exact .inr (hheeding.told r w hw hcancelled l hopen)

/-- A CTAPHID_CANCEL on channel 1. -/
def cancelPacket : Bytes :=
  [0, 0, 0, 1, CANCEL_CMD, 0, 0]

/-- Two phones are asked; the cancel comes while they are polled. -/
def cancelEvents : List Event :=
  List.flatten [[.connect "a".toList 0, .connect "b".toList 0,
      .packet 0 [0, 0, 0, 1, CBOR, 0, 1, 1]],
    List.replicate 6 (.hid 0 true), List.replicate 7 (.worker 0 true), [.packet 0 cancelPacket],
    List.replicate 5 (.hid 0 true)]

theorem cancelled_final : ∃ s, Reach next Heeded (start 1) s ∧ Cancelled 0 s.log ∧
    Asked 0 0 s.log ∧ Asked 0 1 s.log ∧ CancelFinal s := by
  obtain ⟨s, hrun, hcancelled, hfirst, hsecond⟩ : ∃ s,
      replay next Heeded (start 1) cancelEvents = some s ∧
        s.log[17]? = some ⟨0, .hid 0, .cancelled 0 .cancel⟩ ∧
        s.log[9]? = some ⟨0, .worker 0, .write (.req 0 1 [1]) 0 true⟩ ∧
        s.log[10]? = some ⟨0, .worker 0, .write (.req 0 1 [1]) 1 true⟩ :=
    ⟨_, rfl, rfl, rfl, rfl⟩
  have hreach := reach_of_replay hrun
  exact ⟨s, hreach, ⟨_, List.mem_of_getElem? hcancelled, rfl⟩,
    ⟨_, List.mem_of_getElem? hfirst, 1, [1], rfl⟩, ⟨_, List.mem_of_getElem? hsecond, 1, [1], rfl⟩,
    cancel_final hreach⟩

/-! ### A cancel before the links are asked is lost -/

/-- The cancel is processed before the worker has asked the one phone. -/
def earlyCancelEvents : List Event :=
  List.flatten [[.connect "a".toList 0, .packet 0 [0, 0, 0, 1, CBOR, 0, 1, 1]],
    List.replicate 6 (.hid 0 true), [.packet 0 cancelPacket], List.replicate 3 (.hid 0 true),
    List.replicate 4 (.worker 0 true)]

theorem request_after_cancel : ∃ s, Reach next always (start 1) s ∧ ¬ CancelFinal s := by
  obtain ⟨s, e, hrun, hsplit, hcancelled, hreq⟩ : ∃ s e,
      replay next always (start 1) earlyCancelEvents = some s ∧ s.log.drop 12 = [e] ∧
        (s.log.take 12)[8]? = some ⟨0, .hid 0, .cancelled 0 .cancel⟩ ∧
        e.act = .write (.req 0 1 [1]) 0 true :=
    ⟨_, _, rfl, rfl, rfl, rfl⟩
  refine ⟨s, reach_of_replay hrun, fun hfinal => ?_⟩
  have hlog : s.log = s.log.take 12 ++ e :: [] := by
    rw [← hsplit, List.take_append_drop]
  have hnot := hfinal.silent _ _ _ hlog _ _ _ _ _ hreq
  exact hnot ⟨_, List.mem_of_getElem? hcancelled, rfl⟩

end Passkey.Daemon
