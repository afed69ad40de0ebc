import Passkey.Daemon.Step

/-!
What one step can do, said once. Invariants of the daemon are proved by cases
on these relations, never by unfolding the step functions again.
-/

namespace Passkey.Daemon

open Library

/-! ### Shared state -/

section Perform

variable {s : State} {actor : Actor} {act : Act}

@[simp] theorem perform_log : (s.perform actor act).log = s.log ++ [⟨s.now, actor, act⟩] := rfl

@[simp] theorem perform_now : (s.perform actor act).now = s.now := by
  cases act <;> rfl

@[simp] theorem perform_hid : (s.perform actor act).hid = s.hid := by
  cases act <;> rfl

@[simp] theorem setWorker_log (r : RequestId) (w : Worker) : (s.setWorker r w).log = s.log := rfl

@[simp] theorem setWorker_now (r : RequestId) (w : Worker) : (s.setWorker r w).now = s.now := rfl

@[simp] theorem setWorker_busy (r : RequestId) (w : Worker) : (s.setWorker r w).busy = s.busy := rfl

@[simp] theorem setWorker_hid (r : RequestId) (w : Worker) : (s.setWorker r w).hid = s.hid := rfl

@[simp] theorem setWorker_link (r : RequestId) (w : Worker) : (s.setWorker r w).link = s.link := rfl

@[simp] theorem setHid_log (t : ThreadId) (pc : HidPc) : (s.setHid t pc).log = s.log := rfl

@[simp] theorem setHid_now (t : ThreadId) (pc : HidPc) : (s.setHid t pc).now = s.now := rfl

@[simp] theorem setHid_busy (t : ThreadId) (pc : HidPc) : (s.setHid t pc).busy = s.busy := rfl

@[simp] theorem setHid_link (t : ThreadId) (pc : HidPc) : (s.setHid t pc).link = s.link := rfl

@[simp] theorem setHid_workers (t : ThreadId) (pc : HidPc) :
    (s.setHid t pc).workers = s.workers := rfl

@[simp] theorem setWorker_workers (r : RequestId) (w : Worker) :
    (s.setWorker r w).workers = s.workers.set r w := rfl

theorem setHid_hid (t u : ThreadId) (pc : HidPc) :
    (s.setHid t pc).hid u = if u = t then pc else s.hid u := by
  simp [State.setHid, Function.update_apply]

end Perform

/-! ### A worker's turn -/

/-- What one step of the worker of request `r` does, case by case. -/
inductive Turn (s : State) (r : RequestId) (w : Worker) : Worker → Act → Prop where
  | plan (hpc : w.pc = .plan) :
      Turn s r w {w with
        devices := s.byDevice
        chosen := s.chosen
        probe := silent w.data
        pc := .consult} .pass
  | consult (hpc : w.pc = .consult) :
      Turn s r w {w with
        rounds := w.planRounds (fun l => (s.link l).device) s.holders s.last
        deadline := s.now + 600000
        pc := .round} .pass
  | roundsOver (hpc : w.pc = .round) (hrounds : w.rounds = []) :
      Turn s r w {w with pc := .verdict (finalError w.errors)} .pass
  | emptyRound {rest : List (List LinkId)} (hpc : w.pc = .round) (hrounds : w.rounds = [] :: rest) :
      Turn s r w {w with rounds := rest} .pass
  | enter {targets : List LinkId} {rest : List (List LinkId)} (hpc : w.pc = .round)
      (hrounds : w.rounds = targets :: rest) (htargets : targets ≠ []) :
      Turn s r w {w with
        rounds := rest
        pending := []
        wins := []
        failures := []
        pc := .send targets} .pass
  | allSent (hpc : w.pc = .send []) : Turn s r w {w with pc := .publish} .pass
  | send {l : LinkId} {rest : List LinkId} {ok : Bool} (hpc : w.pc = .send (l :: rest))
      (hopen : ok = true → (s.link l).isShut = false) :
      Turn s r w {w with
        pending := if ok then w.pending ++ [l] else w.pending
        pc := .send rest} (.write (.req r w.number w.data) l ok)
  | publish (hpc : w.pc = .publish) (hfree : w.locked = false) :
      Turn s r w {w with
        published := w.pending
        done := false
        lastBeat := s.now - 1000
        pc := .check} .pass
  | goOn (hpc : w.pc = .check) (hpending : w.pending ≠ []) (hdone : w.done = false)
      (htime : s.now < w.deadline) (hbusy : s.busy = some r) :
      Turn s r w {w with pc := .sweep w.pending false} .pass
  | stop (hpc : w.pc = .check) : Turn s r w {w with pc := .clear} .pass
  | swept {heard : Bool} (hpc : w.pc = .sweep [] heard) :
      Turn s r w {w with pc := if heard then .check else .beat} .pass
  | silence {l : LinkId} {rest : List LinkId} {heard : Bool} (hpc : w.pc = .sweep (l :: rest) heard)
      (hempty : (s.link l).responses = []) :
      Turn s r w {w with pc := .sweep rest heard} .pass
  | take {l : LinkId} {rest : List LinkId} {heard : Bool} {response : UInt32 × Bytes}
      {queue : List (UInt32 × Bytes)} (hpc : w.pc = .sweep (l :: rest) heard)
      (hqueue : (s.link l).responses = response :: queue) :
      Turn s r w (w.poll l rest heard (some response)) (.take r l response)
  | beat (hpc : w.pc = .beat) :
      Turn s r w {w with lastBeat := s.now, pc := .check}
        (.report (sendReport (channelBytes w.channel ++ [KEEPALIVE, 0, 1, 2])))
  | noBeat (hpc : w.pc = .beat) : Turn s r w {w with pc := .check} .pass
  | clear (hpc : w.pc = .clear) (hfree : w.locked = false) :
      Turn s r w {w with published := [], pc := .withdraw w.pending} .pass
  | withdrawn (hpc : w.pc = .withdraw []) : Turn s r w {w with pc := .judge} .pass
  | withdraw {l : LinkId} {rest : List LinkId} {ok : Bool} (hpc : w.pc = .withdraw (l :: rest)) :
      Turn s r w {w with pc := .withdraw rest} (.write (.cancel r w.number) l ok)
  | judge (hpc : w.pc = .judge) :
      Turn s r w (w.judge fun l => (s.link l).device).1 (w.judge fun l => (s.link l).device).2
  | current {payload : Bytes} (hpc : w.pc = .verdict payload) (hbusy : s.busy = some r) :
      Turn s r w {w with pc := .report (reply w.channel CBOR payload)} (.currency r true)
  | stale {payload : Bytes} (hpc : w.pc = .verdict payload) (hbusy : s.busy ≠ some r) :
      Turn s r w {w with pc := .finish} (.currency r false)
  | reported (hpc : w.pc = .report []) : Turn s r w {w with pc := .finish} .pass
  | report {first : Bytes} {rest : List Bytes} (hpc : w.pc = .report (first :: rest)) :
      Turn s r w {w with pc := .report rest} (.report first)
  | finish (hpc : w.pc = .finish) : Turn s r w {w with pc := .done} (.release r)

theorem turn_cases {s : State} {r : RequestId} {ok : Bool} {w w' : Worker} {act : Act}
    (h : w.turn s r ok = some (w', act)) : Turn s r w w' act := by
  unfold Worker.turn at h
  split at h
  · rename_i hpc
    cases h
    exact .plan hpc
  · rename_i hpc
    cases h
    exact .consult hpc
  · rename_i hpc
    split at h
    · rename_i hrounds
      cases h
      exact .roundsOver hpc hrounds
    · rename_i hrounds
      cases h
      exact .emptyRound hpc hrounds
    · rename_i hne hrounds
      cases h
      exact .enter hpc hrounds hne
  · rename_i hpc
    cases h
    exact .allSent hpc
  · rename_i l rest hpc
    split at h
    · cases h
    · rename_i hopen
      cases h
      exact .send hpc fun hok => by simpa [hok] using hopen
  · rename_i hpc
    split at h
    · cases h
    · rename_i hfree
      cases h
      exact .publish hpc (by simpa using hfree)
  · rename_i hpc
    split at h
    · rename_i hcheck
      simp only [Bool.and_eq_true, decide_eq_true_eq, Bool.not_eq_true'] at hcheck
      obtain ⟨⟨⟨hpending, hdone⟩, htime⟩, hbusy⟩ := hcheck
      cases h
      exact .goOn hpc hpending hdone htime hbusy
    · cases h
      exact .stop hpc
  · rename_i heard hpc
    cases h
    exact .swept hpc
  · rename_i l rest heard hpc
    split at h
    · rename_i hempty
      cases h
      exact .silence hpc hempty
    · rename_i response queue hqueue
      cases h
      exact .take hpc hqueue
  · rename_i hpc
    split at h
    · cases h
      exact .beat hpc
    · cases h
      exact .noBeat hpc
  · rename_i hpc
    split at h
    · cases h
    · rename_i hfree
      cases h
      exact .clear hpc (by simpa using hfree)
  · rename_i hpc
    cases h
    exact .withdrawn hpc
  · rename_i l rest hpc
    split at h
    · cases h
    · cases h
      exact .withdraw hpc
  · rename_i hpc
    obtain ⟨rfl, rfl⟩ := Prod.mk.inj (Option.some.inj h)
    exact .judge hpc
  · rename_i payload hpc
    split at h
    · rename_i hbusy
      cases h
      exact .current hpc hbusy
    · rename_i hbusy
      cases h
      exact .stale hpc hbusy
  · rename_i hpc
    cases h
    exact .reported hpc
  · rename_i first rest hpc
    cases h
    exact .report hpc
  · rename_i hpc
    cases h
    exact .finish hpc
  · cases h

/-! ### A reader's turn -/

/-- The request that a thread in `cancel` is about to withdraw. -/
def HidPc.target : HidPc → Option RequestId
  | .lock r _ => some r
  | .withdraw r _ _ => some r
  | _ => none

/-- The outcomes of one step of a thread that reads the device, with what the
step has found. -/
inductive HidStep (s : State) (ok : Bool) : HidPc → HidPc → Act → Prop where
  | reset {channel : UInt32} {p : Partial} :
      HidStep s ok (.reset channel p) (.cancel (some channel) (.init channel p))
        (.setPartial channel none)
  | unmatched {channel : Option UInt32} {cause : Cause}
      (hother : ∀ r w, s.busy = some r → s.workers[r]? = some w →
        channel ≠ none ∧ channel ≠ some w.channel) :
      HidStep s ok (.cancel channel cause) cause.next .pass
  | cancel {channel : Option UInt32} {cause : Cause} {r : RequestId} {w : Worker}
      (hbusy : s.busy = some r) (hw : s.workers[r]? = some w)
      (hmine : channel = none ∨ channel = some w.channel)
      (hkeep : cause.abandons = false ∨ channel = none) :
      HidStep s ok (.cancel channel cause) (.lock r cause) .pass
  | abandon {cause : Cause} {r : RequestId} {w : Worker} (hbusy : s.busy = some r)
      (hw : s.workers[r]? = some w) (habandons : cause.abandons = true) :
      HidStep s ok (.cancel (some w.channel) cause) (.lock r cause) (.abandon r)
  | lock {cause : Cause} {r : RequestId} {w : Worker} (hw : s.workers[r]? = some w)
      (hfree : w.locked = false) :
      HidStep s ok (.lock r cause) (.withdraw r w.published cause) (.lock r cause)
  | withdraw {cause : Cause} {r : RequestId} {w : Worker} {l : LinkId} {rest : List LinkId}
      (hw : s.workers[r]? = some w) (hopen : (ok && (s.link l).isShut) = false) :
      HidStep s ok (.withdraw r (l :: rest) cause) (.withdraw r rest cause)
        (.write (.cancel r w.number) l ok)
  | withdrawn {cause : Cause} {r : RequestId} :
      HidStep s ok (.withdraw r [] cause) cause.next (.cancelled r cause)
  | elsewhere {channel : UInt32} {p : Partial} (hbusy : s.busyElsewhere channel = true) :
      HidStep s ok (.busyCheck channel p) (.report (error channel ERR_CHANNEL_BUSY)) .pass
  | here {channel : UInt32} {p : Partial} (hbusy : s.busyElsewhere channel = false) :
      HidStep s ok (.busyCheck channel p) (.insert channel p) .pass
  | insert {channel : UInt32} {p : Partial} :
      HidStep s ok (.insert channel p) (.complete channel) (.setPartial channel (some p))
  | unknown {channel : UInt32} {sequence : UInt8} {payload : Bytes}
      (hnone : s.partials channel = none) :
      HidStep s ok (.continuation channel sequence payload) .idle .pass
  | misnumbered {channel : UInt32} {sequence : UInt8} {payload : Bytes} {p : Partial}
      (hp : s.partials channel = some p) (hsequence : sequence ≠ p.nextSequence) :
      HidStep s ok (.continuation channel sequence payload)
        (.report (error channel ERR_INVALID_SEQ)) (.setPartial channel none)
  | extend {channel : UInt32} {payload : Bytes} {p : Partial} (hp : s.partials channel = some p) :
      HidStep s ok (.continuation channel p.nextSequence payload) (.complete channel)
        (.setPartial channel (some {p with
          data := p.data ++ payload.take (p.total - p.data.length)
          nextSequence := p.nextSequence + 1}))
  | vanished {channel : UInt32} (hnone : s.partials channel = none) :
      HidStep s ok (.complete channel) .idle .pass
  | short {channel : UInt32} {p : Partial} (hp : s.partials channel = some p)
      (hshort : p.data.length < p.total) : HidStep s ok (.complete channel) .idle .pass
  | whole {channel : UInt32} {p : Partial} (hp : s.partials channel = some p)
      (hwhole : p.total ≤ p.data.length) :
      HidStep s ok (.complete channel) (.dispatch channel p.command p.data)
        (.setPartial channel none)
  | dispatch {channel : UInt32} {command : UInt8} {data : Bytes} :
      HidStep s ok (.dispatch channel command data) (s.dispatch channel command data) .pass
  | assign {data : Bytes} (hchannel : s.nextChannel ≠ 0 ∧ s.nextChannel ≠ BROADCAST) :
      HidStep s ok (.assign data) (.report (initReply BROADCAST data s.nextChannel)) .takeChannel
  | skip {data : Bytes} (hchannel : s.nextChannel = 0 ∨ s.nextChannel = BROADCAST) :
      HidStep s ok (.assign data) (.assign data) .takeChannel
  | number {channel : UInt32} {data : Bytes} :
      HidStep s ok (.number channel data) (.accept channel s.nextRequest data) .takeNumber
  | refuse {channel n : UInt32} {data : Bytes} {r : RequestId} (hbusy : s.busy = some r) :
      HidStep s ok (.accept channel n data) (.report (error channel ERR_CHANNEL_BUSY)) .pass
  | accept {channel n : UInt32} {data : Bytes} (hbusy : s.busy = none) :
      HidStep s ok (.accept channel n data) .idle
        (.accept {channel := channel, number := n, data := data})
  | reported : HidStep s ok (.report []) .idle .pass
  | report {first : Bytes} {rest : List Bytes} :
      HidStep s ok (.report (first :: rest)) (.reporting rest) (.report first)

theorem beginCancel_cases {s : State} {ok : Bool} {channel : Option UInt32} {cause : Cause} :
    HidStep s ok (.cancel channel cause) (s.beginCancel channel cause).1
      (s.beginCancel channel cause).2 := by
  unfold State.beginCancel
  cases hbusy : s.busy with
  | none =>
      apply HidStep.unmatched
      intro r w hr
      cases hbusy.symm.trans hr
  | some r =>
      dsimp only
      cases hw : s.workers[r]? with
      | none =>
          apply HidStep.unmatched
          intro r' w hr hw'
          cases hbusy.symm.trans hr
          cases hw.symm.trans hw'
      | some w =>
          dsimp only
          by_cases habandon : (cause.abandons && decide (channel = some w.channel)) = true
          · simp only [Bool.and_eq_true, decide_eq_true_eq] at habandon
            obtain ⟨habandons, rfl⟩ := habandon
            simp only [habandons, decide_true, Bool.or_true, Bool.and_self, ↓reduceIte]
            exact .abandon hbusy hw habandons
          · rw [if_neg habandon]
            simp only [Bool.and_eq_true, decide_eq_true_eq, not_and] at habandon
            split
            · rename_i hmine
              simp only [Bool.or_eq_true, decide_eq_true_eq] at hmine
              refine .cancel hbusy hw hmine ?_
              rcases hmine with hnone | hsome
              · exact .inr hnone
              · exact .inl (Bool.eq_false_iff.mpr fun h => habandon h hsome)
            · rename_i hother
              apply HidStep.unmatched
              intro r' w' hr hw'
              cases hbusy.symm.trans hr
              cases hw.symm.trans hw'
              simpa using hother

theorem hidStep_cases {s : State} {ok : Bool} {pc pc' : HidPc} {act : Act}
    (h : pc.turn s ok = some (pc', act)) : HidStep s ok pc pc' act := by
  cases pc with
  | idle => cases h
  | reset channel p =>
      cases h
      exact .reset
  | cancel channel cause =>
      obtain ⟨rfl, rfl⟩ := Prod.mk.inj (Option.some.inj h)
      exact beginCancel_cases
  | lock r cause =>
      simp only [HidPc.turn] at h
      split at h
      · cases h
      · rename_i w hw
        split at h
        · cases h
        · rename_i hfree
          cases h
          exact .lock hw (by simpa using hfree)
  | withdraw r todo cause =>
      cases todo with
      | nil =>
          cases h
          exact .withdrawn
      | cons l rest =>
          simp only [HidPc.turn] at h
          split at h
          · cases h
          · rename_i w hw
            split at h
            · cases h
            · rename_i hopen
              cases h
              exact .withdraw hw (Bool.eq_false_of_not_eq_true hopen)
  | busyCheck channel p =>
      simp only [HidPc.turn] at h
      split at h
      · rename_i hbusy
        cases h
        exact .elsewhere hbusy
      · rename_i hbusy
        cases h
        exact .here (Bool.eq_false_of_not_eq_true hbusy)
  | insert channel p =>
      cases h
      exact .insert
  | continuation channel sequence payload =>
      simp only [HidPc.turn] at h
      split at h
      · rename_i hnone
        cases h
        exact .unknown hnone
      · rename_i p hp
        split at h
        · rename_i hsequence
          cases h
          exact .misnumbered hp hsequence
        · rename_i hsequence
          cases h
          obtain rfl := not_not.mp hsequence
          exact .extend hp
  | complete channel =>
      simp only [HidPc.turn] at h
      split at h
      · rename_i hnone
        cases h
        exact .vanished hnone
      · rename_i p hp
        split at h
        · rename_i hwhole
          cases h
          exact .whole hp hwhole
        · rename_i hshort
          cases h
          exact .short hp (Nat.lt_of_not_le hshort)
  | dispatch channel command data =>
      obtain ⟨rfl, rfl⟩ := Prod.mk.inj (Option.some.inj h)
      exact .dispatch
  | assign data =>
      simp only [HidPc.turn] at h
      split at h
      · rename_i hchannel
        cases h
        exact .assign (by simpa using hchannel)
      · rename_i hchannel
        cases h
        refine .skip ?_
        rw [Bool.and_eq_true, not_and_or] at hchannel
        simpa using hchannel
  | number channel data =>
      cases h
      exact .number
  | accept channel n data =>
      simp only [HidPc.turn] at h
      split at h
      · rename_i hbusy
        cases h
        exact .refuse hbusy
      · rename_i hbusy
        cases h
        exact .accept hbusy
  | report reports =>
      cases reports with
      | nil =>
          cases h
          exact .reported
      | cons first rest =>
          obtain ⟨rfl, rfl⟩ := Prod.mk.inj (Option.some.inj h)
          exact .report

/-- A step of `packet` or `dispatch` that concerns no request. -/
inductive Act.Quiet : Act → Prop where
  | pass : Act.Quiet .pass
  | setPartial (channel : UInt32) (p : Option Partial) : Act.Quiet (.setPartial channel p)
  | takeChannel : Act.Quiet .takeChannel
  | takeNumber : Act.Quiet .takeNumber
  | report (bytes : Bytes) : Act.Quiet (.report bytes)

/-- What one step of a thread that reads the device does. -/
inductive HidTurn (s : State) : HidPc → HidPc → Act → Prop where
  | quiet {pc pc' : HidPc} {act : Act} (hpc : pc.target = none) (hpc' : pc'.target = none)
      (hact : act.Quiet) : HidTurn s pc pc' act
  | cancel {channel : Option UInt32} {cause : Cause} {r : RequestId} {w : Worker}
      (hbusy : s.busy = some r) (hw : s.workers[r]? = some w)
      (hmine : channel = none ∨ channel = some w.channel)
      (hkeep : cause.abandons = false ∨ channel = none) :
      HidTurn s (.cancel channel cause) (.lock r cause) .pass
  | abandon {cause : Cause} {r : RequestId} {w : Worker} (hbusy : s.busy = some r)
      (hw : s.workers[r]? = some w) (habandons : cause.abandons = true) :
      HidTurn s (.cancel (some w.channel) cause) (.lock r cause) (.abandon r)
  | lock {cause : Cause} {r : RequestId} {w : Worker} (hw : s.workers[r]? = some w)
      (hfree : w.locked = false) :
      HidTurn s (.lock r cause) (.withdraw r w.published cause) (.lock r cause)
  | withdraw {cause : Cause} {r : RequestId} {w : Worker} {l : LinkId} {rest : List LinkId}
      {ok : Bool} (hw : s.workers[r]? = some w) :
      HidTurn s (.withdraw r (l :: rest) cause) (.withdraw r rest cause)
        (.write (.cancel r w.number) l ok)
  | withdrawn {cause : Cause} {r : RequestId} :
      HidTurn s (.withdraw r [] cause) cause.next (.cancelled r cause)
  | accept {channel n : UInt32} {data : Bytes} (hbusy : s.busy = none) :
      HidTurn s (.accept channel n data) .idle
        (.accept {channel := channel, number := n, data := data})

@[simp] theorem target_next (cause : Cause) : cause.next.target = none := by
  cases cause <;> rfl

@[simp] theorem target_dispatch (s : State) (channel : UInt32) (command : UInt8) (data : Bytes) :
    (s.dispatch channel command data).target = none := by
  unfold State.dispatch
  repeat' split
  all_goals rfl

theorem target_packet (bytes : Bytes) : (packet bytes).target = none := by
  unfold packet initPacket
  repeat' split
  all_goals rfl

theorem hidTurn_cases {s : State} {ok : Bool} {pc pc' : HidPc} {act : Act}
    (h : pc.turn s ok = some (pc', act)) : HidTurn s pc pc' act := by
  cases hidStep_cases h with
  | unmatched => exact .quiet rfl (target_next _) .pass
  | cancel hbusy hw hmine hkeep => exact .cancel hbusy hw hmine hkeep
  | abandon hbusy hw habandons => exact .abandon hbusy hw habandons
  | lock hw hfree => exact .lock hw hfree
  | withdraw hw => exact .withdraw hw
  | withdrawn => exact .withdrawn
  | accept hbusy => exact .accept hbusy
  | dispatch => exact .quiet rfl (target_dispatch ..) .pass
  | assign | skip => exact .quiet rfl rfl .takeChannel
  | number => exact .quiet rfl rfl .takeNumber
  | reset | insert | misnumbered | extend | whole => exact .quiet rfl rfl (.setPartial ..)
  | @report first rest =>
      refine .quiet rfl ?_ (.report first)
      cases rest <;> rfl
  | _ => exact .quiet rfl rfl .pass

/-! ### One step of the system -/

/-- A step of the links, the clock or the user: no thread moves. -/
structure Outside (s : State) (e : Event) (t : State) : Prop where
  workers : t.workers = s.workers
  busy : t.busy = s.busy
  hid : t.hid = s.hid
  partials : t.partials = s.partials
  log : t.log = s.log
  now : t.now = s.now ∨ ∃ ms, e = .tick ms ∧ t.now = s.now + ms

/-- Where a thread starts that gets an event from the device. -/
def HidPc.Opening (e : Event) (t : ThreadId) (pc : HidPc) : Prop :=
  (∃ bytes, e = .packet t bytes ∧ pc = packet bytes) ∨
    e = .uhidClose t ∧ pc = .cancel none .close

theorem target_opening {e : Event} {t : ThreadId} {pc : HidPc} (h : pc.Opening e t) :
    pc.target = none := by
  rcases h with ⟨bytes, -, rfl⟩ | ⟨-, rfl⟩
  · exact target_packet bytes
  · rfl

/-- What one step of the system does. -/
inductive Step (s : State) : Event → State → Prop where
  | worker {r : RequestId} {ok : Bool} {w w' : Worker} {act : Act} (hw : s.workers[r]? = some w)
      (hturn : Turn s r w w' act) :
      Step s (.worker r ok) ((s.perform (.worker r) act).setWorker r w')
  | hid {t : ThreadId} {ok : Bool} {pc : HidPc} {act : Act} (hturn : HidTurn s (s.hid t) pc act)
      (hrun : (s.hid t).turn s ok = some (pc, act)) :
      Step s (.hid t ok) ((s.perform (.hid t) act).setHid t pc)
  | begin {e : Event} {t : ThreadId} {pc : HidPc} (hidle : s.hid t = .idle)
      (hpc : pc.Opening e t) : Step s e (s.setHid t pc)
  | outside {e : Event} {t : State} (hout : Outside s e t) : Step s e t

theorem isIdle_iff {s : State} {t : ThreadId} (h : s.isIdle t = true) : s.hid t = .idle := by
  unfold State.isIdle at h
  split at h
  · assumption
  · cases h

theorem outside_setLink (s : State) (e : Event) (l : LinkId) (k : Link) :
    Outside s e (s.setLink l k) :=
  ⟨rfl, rfl, rfl, rfl, rfl, .inl rfl⟩

theorem step_cases {s t : State} {e : Event} (h : next s e = some t) : Step s e t := by
  cases e with
  | packet u bytes =>
      obtain ⟨hidle, heq⟩ := Option.ite_none_right_eq_some.mp h
      cases heq
      exact .begin (isIdle_iff hidle) (.inl ⟨bytes, rfl, rfl⟩)
  | uhidClose u =>
      obtain ⟨hidle, heq⟩ := Option.ite_none_right_eq_some.mp h
      cases heq
      exact .begin (isIdle_iff hidle) (.inr ⟨rfl, rfl⟩)
  | hid u ok =>
      obtain ⟨⟨pc, act⟩, hturn, rfl⟩ := Option.map_eq_some_iff.mp h
      exact .hid (hidTurn_cases hturn) hturn
  | worker r ok =>
      obtain ⟨⟨w', act⟩, hbind, rfl⟩ := Option.map_eq_some_iff.mp h
      obtain ⟨w, hw, hturn⟩ := Option.bind_eq_some_iff.mp hbind
      exact .worker hw (turn_cases hturn)
  | ping l ok =>
      obtain ⟨-, heq⟩ := Option.ite_none_left_eq_some.mp h
      cases heq
      exact .outside (outside_setLink ..)
  | stall l passing owed =>
      obtain ⟨-, heq⟩ := Option.ite_none_right_eq_some.mp h
      cases heq
      exact .outside (outside_setLink ..)
  | connect device priority =>
      cases h
      exact .outside ⟨rfl, rfl, rfl, rfl, rfl, .inl rfl⟩
  | close l =>
      obtain ⟨-, heq⟩ := Option.ite_none_right_eq_some.mp h
      cases heq
      exact .outside (outside_setLink ..)
  | remove l =>
      obtain ⟨-, heq⟩ := Option.ite_none_left_eq_some.mp h
      cases heq
      exact .outside ⟨rfl, rfl, rfl, rfl, rfl, .inl rfl⟩
  | receive l bytes =>
      obtain ⟨-, heq⟩ := Option.ite_none_right_eq_some.mp h
      cases heq
      exact .outside (outside_setLink ..)
  | readLink l =>
      obtain ⟨-, heq⟩ := Option.ite_none_right_eq_some.mp h
      obtain ⟨k, -, rfl⟩ := Option.map_eq_some_iff.mp heq
      exact .outside (outside_setLink ..)
  | endRead l =>
      obtain ⟨-, heq⟩ := Option.ite_none_right_eq_some.mp h
      cases heq
      exact .outside (outside_setLink ..)
  | choose device =>
      cases h
      exact .outside ⟨rfl, rfl, rfl, rfl, rfl, .inl rfl⟩
  | tick ms =>
      cases h
      exact .outside ⟨rfl, rfl, rfl, rfl, rfl, .inr ⟨ms, rfl, rfl⟩⟩

/-! ### Workers and the busy slot across a step -/

/-- An act of a worker, which touches no worker's variables. -/
inductive Act.Own : Act → Prop where
  | pass : Act.Own .pass
  | report (bytes : Bytes) : Act.Own (.report bytes)
  | write (m : Message) (l : LinkId) (ok : Bool) : Act.Own (.write m l ok)
  | take (r : RequestId) (l : LinkId) (response : UInt32 × Bytes) : Act.Own (.take r l response)
  | record (device : Text) (holders : Option (List Text)) : Act.Own (.record device holders)
  | currency (r : RequestId) (current : Bool) : Act.Own (.currency r current)
  | release (r : RequestId) : Act.Own (.release r)

theorem turn_own {s : State} {r : RequestId} {w w' : Worker} {act : Act}
    (h : Turn s r w w' act) : act.Own := by
  cases h with
  | judge hpc =>
      unfold Worker.judge
      repeat' split
      all_goals constructor
  | _ => constructor

theorem Act.Own.workers {act : Act} (h : act.Own) (s : State) (actor : Actor) :
    (s.perform actor act).workers = s.workers := by
  cases h <;> rfl

theorem Act.Quiet.workers {act : Act} (h : act.Quiet) (s : State) (actor : Actor) :
    (s.perform actor act).workers = s.workers := by
  cases h <;> rfl

theorem Act.Quiet.busy {act : Act} (h : act.Quiet) (s : State) (actor : Actor) :
    (s.perform actor act).busy = s.busy := by
  cases h <;> rfl

/-- The log gained at most an entry that is not of this worker. -/
def OthersLog (r : RequestId) (s t : State) : Prop :=
  t.log = s.log ∨ ∃ actor act, actor ≠ .worker r ∧ t.log = s.log ++ [⟨s.now, actor, act⟩]

/-- How a worker got to where it is: by its own step, by a step of another
thread that at most took or freed the lock of its pending links, or by being
spawned. -/
inductive Moved (s : State) (e : Event) (t : State) (r : RequestId) (w' : Worker) : Prop where
  | own {ok : Bool} {w : Worker} {act : Act} (he : e = .worker r ok)
      (hw : s.workers[r]? = some w) (hturn : Turn s r w w' act)
      (ht : t = (s.perform (.worker r) act).setWorker r w')
  | other {w : Worker} (locked : Bool) (hw : s.workers[r]? = some w)
      (hsame : w' = {w with locked := locked}) (hlog : OthersLog r s t)
  | spawned {channel n : UInt32} {data : Bytes} (hr : r = s.workers.length)
      (hw' : w' = {channel := channel, number := n, data := data}) (hlog : OthersLog r s t)

theorem setLocked_worker {s : State} {r q : RequestId} {locked : Bool} {w' : Worker}
    (h : (s.setLocked r locked).workers[q]? = some w') :
    ∃ w b, s.workers[q]? = some w ∧ w' = {w with locked := b} := by
  simp only [State.setLocked, List.getElem?_modify] at h
  obtain ⟨w, hw, hmap⟩ := Option.map_eq_some_iff.mp h
  split at hmap
  · exact ⟨w, locked, hw, hmap.symm⟩
  · exact ⟨w, w.locked, hw, hmap.symm⟩

theorem Step.moved {s t : State} {e : Event} (h : Step s e t) {r : RequestId} {w' : Worker}
    (hw' : t.workers[r]? = some w') : Moved s e t r w' := by
  have hkept (hworkers : t.workers = s.workers) (hlog : OthersLog r s t) : Moved s e t r w' :=
    .other w'.locked (hworkers ▸ hw') rfl hlog
  cases h with
  | @worker q ok w w'' act hw hturn =>
      have hworkers := (turn_own hturn).workers s (.worker q)
      by_cases hq : r = q
      · subst hq
        rw [setWorker_workers, hworkers, List.getElem?_set_self'] at hw'
        rw [hw] at hw'
        obtain rfl : w'' = w' := Option.some.inj hw'
        exact .own rfl hw hturn rfl
      · rw [setWorker_workers, hworkers, List.getElem?_set_ne (Ne.symm hq)] at hw'
        refine .other w'.locked hw' rfl (.inr ⟨_, _, ?_, rfl⟩)
        simpa using Ne.symm hq
  | @hid u ok pc act hturn =>
      have hlog : OthersLog r s ((s.perform (.hid u) act).setHid u pc) :=
        .inr ⟨.hid u, act, by simp, rfl⟩
      rw [setHid_workers] at hw'
      generalize s.hid u = before at hturn
      cases hturn with
      | quiet hpc hpc' hact => exact hkept (hact.workers s (.hid u)) hlog
      | cancel => exact hkept rfl hlog
      | abandon => exact hkept rfl hlog
      | withdraw => exact hkept rfl hlog
      | lock =>
          obtain ⟨w, b, hw, hsame⟩ := setLocked_worker hw'
          exact .other b hw hsame hlog
      | withdrawn =>
          obtain ⟨w, b, hw, hsame⟩ := setLocked_worker hw'
          exact .other b hw hsame hlog
      | @accept channel n data hbusy =>
          change (s.workers ++ [_])[r]? = some w' at hw'
          rcases Nat.lt_trichotomy r s.workers.length with hlt | heq | hgt
          · rw [List.getElem?_append_left hlt] at hw'
            exact .other w'.locked hw' rfl hlog
          · subst heq
            rw [List.getElem?_concat_length] at hw'
            exact .spawned rfl (Option.some.inj hw').symm hlog
          · rw [List.getElem?_eq_none (by simp; omega)] at hw'
            cases hw'
  | begin => exact hkept rfl (.inl rfl)
  | outside hout => exact hkept hout.workers (.inl hout.log)

/-- What a step may do to the busy slot. -/
inductive SlotStep (s : State) (e : Event) (t : State) : Prop where
  | same (hbusy : t.busy = s.busy) (hworkers : t.workers.length = s.workers.length)
  | accept (hfree : s.busy = none) (hbusy : t.busy = some s.workers.length)
      (hworkers : t.workers.length = s.workers.length + 1)
  | abandon {u : ThreadId} {ok : Bool} {r : RequestId} {w : Worker} {cause : Cause}
      (he : e = .hid u ok) (hu : s.hid u = .cancel (some w.channel) cause)
      (hinit : cause.abandons = true) (hw : s.workers[r]? = some w) (hbusy : s.busy = some r)
      (hfree : t.busy = none) (hlog : t.log = s.log ++ [⟨s.now, .hid u, .abandon r⟩])
      (hworkers : t.workers.length = s.workers.length)
  | release {ok : Bool} {r : RequestId} {w : Worker} (he : e = .worker r ok)
      (hw : s.workers[r]? = some w) (hpc : w.pc = .finish) (hbusy : s.busy = some r)
      (hw' : t.workers[r]? = some {w with pc := .done}) (hfree : t.busy = none)
      (hworkers : t.workers.length = s.workers.length)

theorem Step.slot {s t : State} {e : Event} (h : Step s e t) : SlotStep s e t := by
  cases h with
  | @worker q ok w w' act hw hturn =>
      have hlength : ((s.perform (.worker q) act).setWorker q w').workers.length =
          s.workers.length := by
        rw [setWorker_workers, List.length_set, (turn_own hturn).workers]
      cases hturn with
      | finish hpc =>
          by_cases hbusy : s.busy = some q
          · refine .release rfl hw hpc hbusy ?_ (by simp [State.perform, State.effect, hbusy]) hlength
            rw [setWorker_workers, List.getElem?_set_self']
            exact congrArg (Option.map _) hw
          · exact .same (by simp [State.perform, State.effect, hbusy]) hlength
      | judge hpc =>
          refine .same ?_ hlength
          unfold Worker.judge
          repeat' split
          all_goals rfl
      | _ => exact .same rfl hlength
  | @hid u ok pc act hturn =>
      generalize hu : s.hid u = before at hturn
      cases hturn with
      | quiet hpc hpc' hact =>
          exact .same (hact.busy s (.hid u)) (by rw [setHid_workers, hact.workers])
      | cancel => exact .same rfl rfl
      | abandon hbusy hw hinit => exact .abandon rfl hu hinit hw hbusy rfl rfl rfl
      | withdraw => exact .same rfl rfl
      | lock => exact .same rfl (List.length_modify ..)
      | withdrawn => exact .same rfl (List.length_modify ..)
      | accept hbusy => exact .accept hbusy rfl (by simp [State.perform, State.effect])
  | begin => exact .same rfl rfl
  | outside hout => exact .same hout.busy (by rw [hout.workers])

theorem SlotStep.length_le {s t : State} {e : Event} (h : SlotStep s e t) :
    s.workers.length ≤ t.workers.length := by
  cases h with
  | same _ hworkers => exact Nat.le_of_eq hworkers.symm
  | accept _ _ hworkers => exact hworkers ▸ Nat.le_succ _
  | abandon _ _ _ _ _ _ _ hworkers => exact Nat.le_of_eq hworkers.symm
  | release _ _ _ _ _ _ hworkers => exact Nat.le_of_eq hworkers.symm

/-! ### The log across a step -/

/-- The log only grows. -/
theorem Step.log {s t : State} {e : Event} (h : Step s e t) :
    ∃ more, t.log = s.log ++ more := by
  cases h with
  | worker => exact ⟨_, rfl⟩
  | hid => exact ⟨_, rfl⟩
  | begin => exact ⟨[], by simp⟩
  | outside hout => exact ⟨[], by simp [hout.log]⟩

/-- Only the worker of a request acts as it. -/
theorem Step.othersLog {s t : State} {e : Event} (h : Step s e t) {r : RequestId}
    (hr : ∀ w, s.workers[r]? = some w → ∀ ok, e ≠ .worker r ok) : OthersLog r s t := by
  cases h with
  | @worker q ok w _ act hw =>
      refine .inr ⟨.worker q, act, fun heq => ?_, rfl⟩
      cases heq
      exact hr w hw ok rfl
  | @hid u _ _ act => exact .inr ⟨.hid u, act, by simp, rfl⟩
  | begin => exact .inl rfl
  | outside hout => exact .inl hout.log

/-- A worker sends only its own request, and only in the send loop. -/
theorem turn_req {s : State} {r q : RequestId} {w w' : Worker} {number : UInt32} {data : Bytes}
    {l : LinkId} {ok : Bool} (h : Turn s r w w' (.write (.req q number data) l ok)) :
    q = r ∧ number = w.number ∧ data = w.data ∧ ∃ rest, w.pc = .send (l :: rest) ∧
      w' = {w with pending := if ok then w.pending ++ [l] else w.pending, pc := .send rest} := by
  generalize hact : Act.write (.req q number data) l ok = act at h
  cases h with
  | send hpc =>
      simp only [Act.write.injEq, Message.req.injEq] at hact
      obtain ⟨⟨rfl, rfl, rfl⟩, rfl, rfl⟩ := hact
      exact ⟨rfl, rfl, rfl, _, hpc, rfl⟩
  | judge hpc =>
      exfalso
      unfold Worker.judge at hact
      repeat' split at hact
      all_goals simp at hact
  | _ => simp at hact

/-- A new REQ frame comes from a worker in its send loop. -/
theorem Step.req {s t : State} {e : Event} (h : Step s e t) :
    t.log = s.log ∨ ∃ x, t.log = s.log ++ [x] ∧ x.time = s.now ∧
      ∀ r number data l ok, x.act = .write (.req r number data) l ok →
        ∃ w rest, s.workers[r]? = some w ∧ w.number = number ∧ w.data = data ∧
          w.pc = .send (l :: rest) := by
  cases h with
  | @worker q ok w w' act hw hturn =>
      refine .inr ⟨_, rfl, rfl, ?_⟩
      rintro r number data l ok rfl
      obtain ⟨rfl, rfl, rfl, rest, hpc, -⟩ := turn_req hturn
      exact ⟨w, rest, hw, rfl, rfl, hpc⟩
  | @hid u ok pc act hturn =>
      refine .inr ⟨_, rfl, rfl, ?_⟩
      rintro r number data l ok rfl
      generalize s.hid u = before at hturn
      cases hturn with
      | quiet _ _ hact => cases hact
  | begin => exact .inl rfl
  | outside hout => exact .inl hout.log

/-- A worker stays where it is, or takes its own step. -/
theorem Step.after {s t : State} {e : Event} (h : Step s e t) {r : RequestId} {w : Worker}
    (hw : s.workers[r]? = some w) : ∃ w', t.workers[r]? = some w' ∧
      ((∃ ok act, e = .worker r ok ∧ Turn s r w w' act ∧
          t = (s.perform (.worker r) act).setWorker r w') ∨
        ∃ locked, w' = {w with locked := locked} ∧ OthersLog r s t) := by
  have hlt := (List.getElem?_eq_some_iff.mp hw).1
  have hle := h.slot.length_le
  obtain ⟨w', hw'⟩ : ∃ w', t.workers[r]? = some w' :=
    ⟨_, List.getElem?_eq_getElem (Nat.lt_of_lt_of_le hlt hle)⟩
  refine ⟨w', hw', ?_⟩
  cases h.moved hw' with
  | own he hw₀ hturn ht =>
      obtain rfl := Option.some.inj (hw₀.symm.trans hw)
      exact .inl ⟨_, _, he, hturn, ht⟩
  | other locked hw₀ hsame hlog =>
      obtain rfl := Option.some.inj (hw₀.symm.trans hw)
      exact .inr ⟨locked, hsame, hlog⟩
  | spawned hr => exact absurd hlt (hr ▸ Nat.lt_irrefl _)

/-- Two states of one worker are about the same request. -/
structure Worker.SameRequest (w w' : Worker) : Prop where
  channel : w'.channel = w.channel
  number : w'.number = w.number
  data : w'.data = w.data

theorem poll_request (w : Worker) (l : LinkId) (rest : List LinkId) (heard : Bool)
    (response : Option (UInt32 × Bytes)) : w.SameRequest (w.poll l rest heard response) := by
  unfold Worker.poll
  repeat' split
  all_goals exact ⟨rfl, rfl, rfl⟩

theorem judge_request (w : Worker) (device : LinkId → Text) :
    w.SameRequest (w.judge device).1 := by
  unfold Worker.judge
  repeat' split
  all_goals exact ⟨rfl, rfl, rfl⟩

theorem turn_request {s : State} {r : RequestId} {w w' : Worker} {act : Act}
    (h : Turn s r w w' act) : w.SameRequest w' := by
  cases h with
  | take => exact poll_request ..
  | judge => exact judge_request ..
  | _ => exact ⟨rfl, rfl, rfl⟩

theorem Step.request {s t : State} {e : Event} (h : Step s e t) {r : RequestId} {w : Worker}
    (hw : s.workers[r]? = some w) : ∃ w', t.workers[r]? = some w' ∧ w.SameRequest w' := by
  obtain ⟨w', hw', ⟨ok, act, -, hturn, -⟩ | ⟨locked, hsame, -⟩⟩ := h.after hw
  · exact ⟨w', hw', turn_request hturn⟩
  · exact ⟨w', hw', hsame ▸ ⟨rfl, rfl, rfl⟩⟩

/-- A request that was accepted and is not busy never is again. -/
theorem SlotStep.stays_free {s t : State} {e : Event} (h : SlotStep s e t) {r : RequestId}
    (hr : r < s.workers.length) (hfree : s.busy ≠ some r) : t.busy ≠ some r := by
  cases h with
  | same hbusy => exact hbusy ▸ hfree
  | accept _ hbusy =>
      rw [hbusy]
      rintro ⟨⟩
      exact Nat.lt_irrefl _ hr
  | abandon _ _ _ _ _ hnone => simp [hnone]
  | release _ _ _ _ _ hnone => simp [hnone]

/-- Time passes only in a tick. -/
theorem Step.now {s t : State} {e : Event} (h : Step s e t) :
    t.now = s.now ∨ ∃ ms, e = .tick ms ∧ t.now = s.now + ms := by
  cases h with
  | worker => exact .inl (by simp)
  | hid => exact .inl (by simp)
  | begin => exact .inl rfl
  | outside hout => exact hout.now

/-! ### A link across a step -/

/-- An act that neither writes to the link nor takes from it. -/
def Act.AwayFrom (l : LinkId) : Act → Prop
  | .write _ k _ => k ≠ l
  | .take _ k _ => k ≠ l
  | _ => True

theorem Act.Quiet.away {act : Act} (h : act.Quiet) (l : LinkId) : act.AwayFrom l := by
  cases h <;> trivial

theorem Act.AwayFrom.link {act : Act} {l : LinkId} (h : act.AwayFrom l) (s : State)
    (actor : Actor) : (s.perform actor act).link l = s.link l := by
  cases act with
  | write m k ok => exact Function.update_of_ne (Ne.symm h) ..
  | take r k response => exact Function.update_of_ne (Ne.symm h) ..
  | _ => rfl

/-- What a step does to a link. -/
inductive LinkStep (s : State) (e : Event) (t : State) (l : LinkId) : Prop where
  | away (hlink : t.link l = s.link l)
      (hlog : t.log = s.log ∨ ∃ x, t.log = s.log ++ [x] ∧ x.act.AwayFrom l)
  | write {actor : Actor} {m : Message} {ok : Bool} (hlink : t.link l = (s.link l).write m.body ok)
      (hlog : t.log = s.log ++ [⟨s.now, actor, .write m l ok⟩])
  | take {r : RequestId} {ok : Bool} {w : Worker} {rest : List LinkId} {heard : Bool}
      {response : UInt32 × Bytes} {queue : List (UInt32 × Bytes)} (he : e = .worker r ok)
      (hw : s.workers[r]? = some w) (hpc : w.pc = .sweep (l :: rest) heard)
      (hqueue : (s.link l).responses = response :: queue)
      (hlink : t.link l = {s.link l with responses := queue})
      (hlog : t.log = s.log ++ [⟨s.now, .worker r, .take r l response⟩])
  | ping {ok : Bool} (he : e = .ping l ok) (hlink : t.link l = (s.link l).write [PING] ok)
      (hlog : t.log = s.log)
  | stall {passing owed : Nat} (he : e = .stall l passing owed)
      (hlink : t.link l = {s.link l with passing, owed}) (hlog : t.log = s.log)
  | connect {device : Text} {priority : UInt8} (he : e = .connect device priority)
      (hlink : t.link l = {s.link l with device, priority}) (hlog : t.log = s.log)
  | close (he : e = .close l) (hlink : t.link l = (s.link l).close) (hlog : t.log = s.log)
  | receive {bytes : Bytes} (he : e = .receive l bytes)
      (hlink : t.link l = {s.link l with received := (s.link l).received ++ bytes})
      (hlog : t.log = s.log)
  | readLink (he : e = .readLink l) (hlink : (s.link l).readLink = some (t.link l))
      (hlog : t.log = s.log)
  | endRead (he : e = .endRead l) (hlink : t.link l = {s.link l with reading := false})
      (hlog : t.log = s.log)

theorem turn_link {s : State} {r : RequestId} {ok : Bool} {w w' : Worker} {act : Act}
    (hw : s.workers[r]? = some w) (h : Turn s r w w' act) (l : LinkId) :
    LinkStep s (.worker r ok) ((s.perform (.worker r) act).setWorker r w') l := by
  have haway (hact : act.AwayFrom l) :
      LinkStep s (.worker r ok) ((s.perform (.worker r) act).setWorker r w') l :=
    .away (hact.link s (.worker r)) (.inr ⟨_, rfl, hact⟩)
  have hwrite {m : Message} {k : LinkId} {b : Bool} (hact : act = .write m k b) :
      LinkStep s (.worker r ok) ((s.perform (.worker r) act).setWorker r w') l := by
    subst hact
    by_cases hk : k = l
    · subst hk
      exact .write (Function.update_self ..) rfl
    · exact haway hk
  cases h with
  | send => exact hwrite rfl
  | withdraw => exact hwrite rfl
  | @take k rest heard response queue hpc hqueue =>
      by_cases hk : k = l
      · subst hk
        refine .take rfl hw hpc hqueue ?_ rfl
        exact (Function.update_self ..).trans (by rw [hqueue]; rfl)
      · exact haway hk
  | judge =>
      refine haway ?_
      unfold Worker.judge
      repeat' split
      all_goals trivial
  | _ => exact haway trivial

theorem hidTurn_link {s : State} {u : ThreadId} {ok : Bool} {pc : HidPc} {act : Act}
    (h : HidTurn s (s.hid u) pc act) (l : LinkId) :
    LinkStep s (.hid u ok) ((s.perform (.hid u) act).setHid u pc) l := by
  have haway (hact : act.AwayFrom l) :
      LinkStep s (.hid u ok) ((s.perform (.hid u) act).setHid u pc) l :=
    .away (hact.link s (.hid u)) (.inr ⟨_, rfl, hact⟩)
  generalize s.hid u = before at h
  cases h with
  | quiet _ _ hact => exact haway (hact.away l)
  | @withdraw _ _ _ k =>
      by_cases hk : k = l
      · subst hk
        exact .write (Function.update_self ..) rfl
      · exact haway hk
  | _ => exact haway trivial

/-- A step of the links that sets one of them. -/
theorem setLink_link {s : State} {e : Event} {k l : LinkId} {link : Link}
    (h : k = l → LinkStep s e (s.setLink k link) l) : LinkStep s e (s.setLink k link) l := by
  by_cases hk : k = l
  · exact h hk
  · exact .away (Function.update_of_ne (Ne.symm hk) ..) (.inl rfl)

theorem next_link {s t : State} {e : Event} (h : next s e = some t) (l : LinkId) :
    LinkStep s e t l := by
  have hset {k : LinkId} {link : Link} : (s.setLink k link).link k = link :=
    Function.update_self ..
  cases e with
  | packet u bytes =>
      obtain ⟨-, heq⟩ := Option.ite_none_right_eq_some.mp h
      cases heq
      exact .away rfl (.inl rfl)
  | uhidClose u =>
      obtain ⟨-, heq⟩ := Option.ite_none_right_eq_some.mp h
      cases heq
      exact .away rfl (.inl rfl)
  | hid u ok =>
      obtain ⟨⟨pc, act⟩, hturn, rfl⟩ := Option.map_eq_some_iff.mp h
      exact hidTurn_link (hidTurn_cases hturn) l
  | worker r ok =>
      obtain ⟨⟨w', act⟩, hbind, rfl⟩ := Option.map_eq_some_iff.mp h
      obtain ⟨w, hw, hturn⟩ := Option.bind_eq_some_iff.mp hbind
      exact turn_link hw (turn_cases hturn) l
  | ping k ok =>
      obtain ⟨-, heq⟩ := Option.ite_none_left_eq_some.mp h
      cases heq
      exact setLink_link fun hk => hk ▸ .ping rfl hset rfl
  | stall k passing owed =>
      obtain ⟨-, heq⟩ := Option.ite_none_right_eq_some.mp h
      cases heq
      exact setLink_link fun hk => hk ▸ .stall rfl hset rfl
  | connect device priority =>
      cases h
      by_cases hk : s.created = l
      · subst hk
        exact .connect rfl (Function.update_self ..) rfl
      · exact .away (Function.update_of_ne (Ne.symm hk) ..) (.inl rfl)
  | close k =>
      obtain ⟨-, heq⟩ := Option.ite_none_right_eq_some.mp h
      cases heq
      exact setLink_link fun hk => hk ▸ .close rfl hset rfl
  | remove k =>
      obtain ⟨-, heq⟩ := Option.ite_none_left_eq_some.mp h
      cases heq
      exact .away rfl (.inl rfl)
  | receive k bytes =>
      obtain ⟨-, heq⟩ := Option.ite_none_right_eq_some.mp h
      cases heq
      exact setLink_link fun hk => hk ▸ .receive rfl hset rfl
  | readLink k =>
      obtain ⟨-, heq⟩ := Option.ite_none_right_eq_some.mp h
      obtain ⟨link, hread, rfl⟩ := Option.map_eq_some_iff.mp heq
      exact setLink_link fun hk => hk ▸ .readLink rfl (hset ▸ hread) rfl
  | endRead k =>
      obtain ⟨-, heq⟩ := Option.ite_none_right_eq_some.mp h
      cases heq
      exact setLink_link fun hk => hk ▸ .endRead rfl hset rfl
  | choose device =>
      cases h
      exact .away rfl (.inl rfl)
  | tick ms =>
      cases h
      exact .away rfl (.inl rfl)

end Passkey.Daemon
