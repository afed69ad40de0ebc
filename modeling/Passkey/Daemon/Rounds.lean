import Passkey.Daemon.Replies
import Passkey.Library.Histories

/-!
REQ frames of a request that was abandoned or ran out of time. The decision to
go on to the next round, and the send loop, look at neither; the law that no
such frame is sent holds in the runs where this makes no difference.
-/

namespace Passkey.Daemon

open Library

/-- No REQ frame is sent for a request after an INIT abandoned it, nor once
its deadline has passed. -/
def NoLateRequest (s : State) : Prop :=
  Each (fun before e => ∀ r number data l ok, e.act = .write (.req r number data) l ok →
    ¬ Abandoned r before ∧ ∀ w, s.workers[r]? = some w → e.time < w.deadline) s.log

/-- The worker has REQ frames of its round to send. -/
def Worker.sending (w : Worker) : Bool :=
  match w.pc with
  | .send (_ :: _) => true
  | _ => false

/-- The worker is about to enter the send loop of a round with targets. -/
def Worker.entering (w : Worker) : Bool :=
  match w.pc, w.rounds with
  | .round, (_ :: _) :: _ => true
  | _, _ => false

/-- The thread is about to take the busy slot for an INIT on this channel. -/
def State.abandoning (s : State) (u : ThreadId) (channel : UInt32) : Bool :=
  match s.hid u with
  | .cancel c (.init ..) => c = some channel
  | _ => false

/-- A round with targets begins only while the request is busy and in time, and
neither an INIT nor the deadline comes in the middle of its send loop. -/
def InTime (s : State) (e : Event) : Prop :=
  match e with
  | .worker r _ => ∀ w ∈ s.workers[r]?, w.entering → s.busy = some r ∧ s.now < w.deadline
  | .hid u _ => ∀ r ∈ s.busy, ∀ w ∈ s.workers[r]?, w.sending → ¬ s.abandoning u w.channel
  | .tick ms => ∀ w ∈ s.workers, w.sending → s.now + ms < w.deadline
  | _ => True

instance (s : State) (e : Event) : Decidable (InTime s e) :=
  match e with
  | .worker r _ => inferInstanceAs (Decidable
      (∀ w ∈ s.workers[r]?, w.entering → s.busy = some r ∧ s.now < w.deadline))
  | .hid u _ => inferInstanceAs (Decidable
      (∀ r ∈ s.busy, ∀ w ∈ s.workers[r]?, w.sending → ¬ s.abandoning u w.channel))
  | .tick ms => inferInstanceAs (Decidable
      (∀ w ∈ s.workers, w.sending → s.now + ms < w.deadline))
  | .packet .. | .uhidClose _ | .ping .. | .stall .. | .connect .. | .close _ | .remove _
  | .receive .. | .readLink _ | .endRead _ | .choose _ => .isTrue trivial

/-- The deadline is set, and stays as it is. -/
def Pc.Planned : Pc → Prop
  | .plan | .consult => False
  | _ => True

theorem poll_planned (w : Worker) (l : LinkId) (rest : List LinkId) (heard : Bool)
    (response : Option (UInt32 × Bytes)) :
    (w.poll l rest heard response).pc.Planned ∧
      (w.poll l rest heard response).deadline = w.deadline := by
  unfold Worker.poll
  repeat' split
  all_goals exact ⟨trivial, rfl⟩

theorem judge_planned (w : Worker) (device : LinkId → Text) :
    (w.judge device).1.pc.Planned ∧ (w.judge device).1.deadline = w.deadline := by
  unfold Worker.judge
  repeat' split
  all_goals exact ⟨trivial, rfl⟩

theorem turn_planned {s : State} {r : RequestId} {w w' : Worker} {act : Act}
    (h : Turn s r w w' act) (hplanned : w.pc.Planned) :
    w'.pc.Planned ∧ w'.deadline = w.deadline := by
  cases h with
  | plan hpc => exact (hpc ▸ hplanned : Pc.Planned .plan).elim
  | consult hpc => exact (hpc ▸ hplanned : Pc.Planned .consult).elim
  | take => exact poll_planned ..
  | judge => exact judge_planned ..
  | @swept heard => cases heard <;> exact ⟨trivial, rfl⟩
  | emptyRound => exact ⟨hplanned, rfl⟩
  | _ => exact ⟨trivial, rfl⟩

/-- A worker with its deadline set keeps it. -/
theorem Step.planned {s t : State} {e : Event} (h : Step s e t) {r : RequestId} {w : Worker}
    (hw : s.workers[r]? = some w) (hplanned : w.pc.Planned) :
    ∃ w', t.workers[r]? = some w' ∧ w'.pc.Planned ∧ w'.deadline = w.deadline := by
  obtain ⟨w', hw', hown | ⟨locked, hsame, -⟩⟩ := h.after hw
  · obtain ⟨ok, act, -, hturn, -⟩ := hown
    exact ⟨w', hw', turn_planned hturn hplanned⟩
  · subst hsame
    exact ⟨_, hw', hplanned, rfl⟩

/-! ### The invariant -/

/-- REQ frames went out in time, and those still to send can. -/
structure Timely (s : State) : Prop where
  sent : Each (fun before e => ∀ r number data l ok, e.act = .write (.req r number data) l ok →
    ¬ Abandoned r before ∧ ∃ w, s.workers[r]? = some w ∧ w.pc.Planned ∧ e.time < w.deadline) s.log
  sending : ∀ (r : RequestId) (w : Worker), s.workers[r]? = some w → w.sending →
    s.busy = some r ∧ s.now < w.deadline

theorem timely_start (pid : UInt32) : Timely (start pid) :=
  ⟨.nil, by simp [start]⟩

theorem poll_sending (w : Worker) (l : LinkId) (rest : List LinkId) (heard : Bool)
    (response : Option (UInt32 × Bytes)) : (w.poll l rest heard response).sending = false := by
  unfold Worker.poll
  repeat' split
  all_goals rfl

theorem judge_sending (w : Worker) (device : LinkId → Text) :
    (w.judge device).1.sending = false := by
  unfold Worker.judge
  repeat' split
  all_goals rfl

/-- A worker in a send loop was in it before, or it just entered. -/
theorem turn_sending {s : State} {r : RequestId} {w w' : Worker} {act : Act}
    (h : Turn s r w w' act) (hsending : w'.sending = true) :
    w'.deadline = w.deadline ∧
      (w.sending = true ∨ w.entering = true ∧ act = .pass) := by
  cases h with
  | @enter targets rest hpc hrounds htargets =>
      refine ⟨rfl, .inr ⟨?_, rfl⟩⟩
      cases targets with
      | nil => exact absurd rfl htargets
      | cons => simp [Worker.entering, hpc, hrounds]
  | send hpc => exact ⟨rfl, .inl (by simp [Worker.sending, hpc])⟩
  | take => simp [poll_sending] at hsending
  | judge => simp [judge_sending] at hsending
  | @swept heard => cases heard <;> cases hsending
  | emptyRound hpc => simp [Worker.sending, hpc] at hsending
  | _ => cases hsending

theorem Timely.sending_step {s t : State} {e : Event} (h : Timely s) (hok : InTime s e)
    (hstep : Step s e t) {r : RequestId} {w' : Worker} (hw' : t.workers[r]? = some w')
    (hsending : w'.sending = true) : t.busy = some r ∧ t.now < w'.deadline := by
  -- A request that was being sent before keeps the slot and the time, by `InTime`.
  have hkept {w : Worker} (hw : s.workers[r]? = some w) (hbefore : w.sending = true)
      (hdeadline : w'.deadline = w.deadline) : t.busy = some r ∧ t.now < w'.deadline := by
    obtain ⟨hbusy, htime⟩ := h.sending r w hw hbefore
    constructor
    · cases hstep.slot with
      | same hsame => exact hsame.trans hbusy
      | accept hfree => simp [hfree] at hbusy
      | @abandon u ok q v cause he hu hinit hv hbusy' =>
          subst he
          obtain rfl := Option.some.inj (hbusy'.symm.trans hbusy)
          obtain rfl := Option.some.inj (hv.symm.trans hw)
          cases cause with
          | init => exact absurd (by simp [State.abandoning, hu]) (hok q hbusy v hv hbefore)
          | cancel => cases hinit
          | close => cases hinit
      | release _ hv hpc hbusy' =>
          obtain rfl := Option.some.inj (hbusy'.symm.trans hbusy)
          obtain rfl := Option.some.inj (hv.symm.trans hw)
          simp [Worker.sending, hpc] at hbefore
    · rcases hstep.now with hsame | ⟨ms, rfl, htick⟩
      · rw [hsame, hdeadline]
        exact htime
      · rw [htick, hdeadline]
        exact hok w (List.mem_of_getElem? hw) hbefore
  cases hstep.moved hw' with
  | @own ok w act he hw hturn ht =>
      obtain ⟨hdeadline, hbefore | ⟨hentering, hact⟩⟩ := turn_sending hturn hsending
      · exact hkept hw hbefore hdeadline
      · subst he hact ht
        rw [hdeadline]
        exact hok w hw hentering
  | @other w locked hw hsame hlog =>
      subst hsame
      exact hkept hw hsending rfl
  | spawned hr hnew =>
      subst hnew
      cases hsending

theorem Timely.step {s t : State} {e : Event} (hinv : Inv s) (h : Timely s) (hok : InTime s e)
    (hnext : next s e = some t) : Timely t := by
  have hstep := step_cases hnext
  refine ⟨?_, fun r w hw hsending => h.sending_step hok hstep hw hsending⟩
  have hold : Each (fun before e => ∀ r number data l ok,
      e.act = .write (.req r number data) l ok → ¬ Abandoned r before ∧
        ∃ w, t.workers[r]? = some w ∧ w.pc.Planned ∧ e.time < w.deadline) s.log := by
    refine h.sent.mono fun before x _ hx r number data l ok hact => ?_
    obtain ⟨hnot, w, hw, hplanned, htime⟩ := hx r number data l ok hact
    obtain ⟨w', hw', hplanned', hdeadline⟩ := hstep.planned hw hplanned
    exact ⟨hnot, w', hw', hplanned', hdeadline ▸ htime⟩
  rcases hstep.req with hsame | ⟨x, hlog, htime, hreq⟩
  · rw [hsame]
    exact hold
  · rw [hlog]
    refine hold.snoc fun r number data l ok hact => ?_
    obtain ⟨w, rest, hw, -, -, hpc⟩ := hreq r number data l ok hact
    obtain ⟨hbusy, hdeadline⟩ := h.sending r w hw (by simp [Worker.sending, hpc])
    obtain ⟨w', hw', hplanned, hsame⟩ := hstep.planned hw (by simp [hpc, Pc.Planned])
    exact ⟨fun habandoned => (hinv.abandoned r habandoned).2 hbusy, w', hw', hplanned,
      by rw [htime, hsame]; exact hdeadline⟩

/-- In every run in which rounds begin in time and are sent in time, no REQ
frame is sent for a request that was abandoned or is past its deadline. -/
theorem no_late_request {pid : UInt32} {s : State} (h : Reach next InTime (start pid) s) :
    NoLateRequest s := by
  have htimely : Timely s :=
    h.invariant_with inv_reachable (timely_start pid)
      fun _ _ _ hinv ht hok hnext => ht.step hinv hok hnext
  refine htimely.sent.mono fun before e _ he r number data l ok hact => ?_
  obtain ⟨hnot, w, hw, -, htime⟩ := he r number data l ok hact
  refine ⟨hnot, fun v hv => ?_⟩
  obtain rfl := Option.some.inj (hv.symm.trans hw)
  exact htime

/-- An INIT comes after the REQ frame of the only round was sent. -/
def lateInitEvents : List Event :=
  List.flatten [[.connect "a".toList 0, .packet 0 [0, 0, 0, 1, CBOR, 0, 1, 1]],
    List.replicate 6 (.hid 0 true), List.replicate 6 (.worker 0 true),
    [.packet 0 [0, 0, 0, 1, INIT, 0, 8, 1, 2, 3, 4, 5, 6, 7, 8]], List.replicate 5 (.hid 0 true),
    List.replicate 8 (.worker 0 true)]

theorem lateInit_no_late_request : ∃ s, Reach next InTime (start 1) s ∧
    (s.workers.map (·.pc)) = [.done] ∧ Abandoned 0 s.log ∧ NoLateRequest s := by
  obtain ⟨s, hrun, hdone, habandon⟩ : ∃ s, replay next InTime (start 1) lateInitEvents = some s ∧
      (s.workers.map (·.pc)) = [.done] ∧ s.log[13]? = some ⟨0, .hid 0, .abandon 0⟩ :=
    ⟨_, rfl, rfl, rfl⟩
  have hreach := reach_of_replay hrun
  exact ⟨s, hreach, hdone, ⟨_, List.mem_of_getElem? habandon, rfl⟩, no_late_request hreach⟩

/-! ### A later round asks after an INIT -/

/-- A GET_ASSERTION with `"up": false`. -/
def probe : Bytes :=
  [GET_ASSERTION, 0xa1, 0x05, 0xa1, 0x62, 0x75, 0x70, 0xf4]

/-- Two phones are probed; only phone `a` holds a credential. -/
def probeEvents : List Event :=
  List.flatten [[.connect "a".toList 0, .connect "b".toList 0,
      .packet 0 ([0, 0, 0, 1, CBOR, 0, 8] ++ probe)],
    List.replicate 6 (.hid 0 true), List.replicate 8 (.worker 0 true),
    [.receive 0 (frame [RESP, 0, 0, 0, 1, 0, 0xa0]), .readLink 0,
      .receive 1 (frame [RESP, 0, 0, 0, 1, NO_CREDENTIALS]), .readLink 1],
    List.replicate 11 (.worker 0 true)]

/-- The request that follows asks `a` first; an INIT on its channel abandons it
before `a` answers. -/
def abandonEvents : List Event :=
  List.flatten [[.packet 0 [0, 0, 0, 1, CBOR, 0, 2, GET_ASSERTION, 0xa0]],
    List.replicate 6 (.hid 0 true), List.replicate 7 (.worker 1 true),
    [.packet 0 [0, 0, 0, 1, INIT, 0, 8, 1, 2, 3, 4, 5, 6, 7, 8]], List.replicate 5 (.hid 0 true),
    List.replicate 10 (.worker 1 true)]

/-- The second round then asks `b`. -/
theorem late_request : ∃ s, Reach next always (start 1) s ∧ ¬ NoLateRequest s := by
  obtain ⟨s, e, hrun, hsplit, habandon, hreq⟩ : ∃ s e,
      replay next always (start 1) (probeEvents ++ abandonEvents) = some s ∧
        s.log.drop 52 = [e] ∧ (s.log.take 52)[39]? = some ⟨0, .hid 0, .abandon 1⟩ ∧
        e.act = .write (.req 1 2 [GET_ASSERTION, 0xa0]) 1 true :=
    ⟨_, _, rfl, rfl, rfl, rfl⟩
  refine ⟨s, reach_of_replay hrun, fun hlaw => ?_⟩
  have hlog : s.log = s.log.take 52 ++ e :: [] := by
    rw [← hsplit, List.take_append_drop]
  have hnot := (hlaw _ _ _ hlog _ _ _ _ _ hreq).1
  exact hnot ⟨_, List.mem_of_getElem? habandon, rfl⟩

end Passkey.Daemon
