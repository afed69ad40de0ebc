import Passkey.Daemon.Withdrawals

/-!
What the daemon puts into a REQ frame: the number of the request, which no
other request has as long as fewer than 2^32 of them came, and its data, of at
most 7609 bytes. What `fan_out` makes of the answers: it records those that
carry the number.
-/

namespace Passkey.Daemon

open Library

/-! ### The length of messages -/

/-- A message that is not complete is not longer than announced, and what is
announced is not longer than 7609 bytes. -/
def Partial.Sized (p : Partial) : Prop :=
  p.data.length ≤ p.total ∧ p.total ≤ 7609

def Cause.Sized : Cause → Prop
  | .init _ p => p.Sized
  | _ => True

def HidPc.Sized : HidPc → Prop
  | .reset _ p | .busyCheck _ p | .insert _ p => p.Sized
  | .cancel _ cause | .lock _ cause | .withdraw _ _ cause => cause.Sized
  | .dispatch _ _ data => data.length ≤ 7609
  | .number _ data | .accept _ _ data => 0 < data.length ∧ data.length ≤ 7609
  | _ => True

structure Sized (s : State) : Prop where
  partials : ∀ channel p, s.partials channel = some p → p.Sized
  hid : ∀ u, (s.hid u).Sized
  worker : ∀ (r : RequestId) (w : Worker), s.workers[r]? = some w →
    0 < w.data.length ∧ w.data.length ≤ 7609

theorem sized_start (pid : UInt32) : Sized (start pid) :=
  ⟨by simp [start], by simp [start, HidPc.Sized], by simp [start]⟩

theorem sized_next {cause : Cause} (h : cause.Sized) : cause.next.Sized := by
  cases cause with
  | init channel p => exact h
  | _ => trivial

theorem sized_packet (bytes : Bytes) : (packet bytes).Sized := by
  unfold packet initPacket
  split
  · split
    · split
      · rename_i command _ _ hi lo body
        split
        · trivial
        · rename_i hlong
          have hsized : Partial.Sized
              ⟨command, ofBigEndian [hi, lo], body.take (ofBigEndian [hi, lo]), 0⟩ := by
            refine ⟨?_, by simpa using hlong⟩
            exact List.length_take_le ..
          split
          · trivial
          · split
            · exact hsized
            · exact hsized
      · trivial
    · trivial
  · trivial

theorem sized_dispatch (s : State) (channel : UInt32) (command : UInt8) {data : Bytes}
    (h : data.length ≤ 7609) : (s.dispatch channel command data).Sized := by
  unfold State.dispatch
  repeat' split
  all_goals first | trivial | skip
  rename_i hdata
  simp only [Bool.or_eq_true, decide_eq_true_eq, not_or] at hdata
  exact ⟨List.length_pos_iff.mpr hdata.1, h⟩

theorem sized_reporting (reports : List Bytes) : (HidPc.reporting reports).Sized := by
  cases reports <;> trivial

/-- What a reader hands on is sized like what it works on. -/
structure HandsOn (pc : HidPc) (act : Act) : Prop where
  pc : pc.Sized
  stored : ∀ channel p, act = .setPartial channel (some p) → p.Sized
  accepted : ∀ w, act = .accept w → 0 < w.data.length ∧ w.data.length ≤ 7609

theorem HandsOn.plain {pc : HidPc} {act : Act} (hpc : pc.Sized)
    (hstored : ∀ channel p, act ≠ .setPartial channel (some p)) (hact : ∀ w, act ≠ .accept w) :
    HandsOn pc act :=
  ⟨hpc, fun channel p heq => absurd heq (hstored channel p), fun w heq => absurd heq (hact w)⟩

theorem Partial.Sized.extend {p : Partial} (h : p.Sized) (payload : Bytes) (sequence : UInt8) :
    Partial.Sized {p with
      data := p.data ++ payload.take (p.total - p.data.length)
      nextSequence := sequence} := by
  obtain ⟨hdata, htotal⟩ := h
  refine ⟨?_, htotal⟩
  dsimp only
  rw [List.length_append, List.length_take]
  omega

theorem hidTurn_sized {s : State} (hs : Sized s) {ok : Bool} {pc pc' : HidPc} {act : Act}
    (hpc : pc.Sized) (h : pc.turn s ok = some (pc', act)) : HandsOn pc' act := by
  cases hidStep_cases h with
  | reset | cancel | abandon | lock | withdraw | here | number =>
      exact .plain hpc (by simp) (by simp)
  | unmatched | withdrawn => exact .plain (sized_next hpc) (by simp) (by simp)
  | insert =>
      refine ⟨trivial, fun c q heq => ?_, by simp⟩
      cases heq
      exact hpc
  | @extend channel payload p hp =>
      refine ⟨trivial, fun c q heq => ?_, by simp⟩
      cases heq
      exact (hs.partials channel p hp).extend payload _
  | @whole channel p hp =>
      obtain ⟨hdata, htotal⟩ := hs.partials channel p hp
      exact .plain (Nat.le_trans hdata htotal) (by simp) (by simp)
  | @dispatch channel command =>
      exact .plain (sized_dispatch s channel command hpc) (by simp) (by simp)
  | accept =>
      refine ⟨trivial, by simp, fun w heq => ?_⟩
      cases heq
      exact hpc
  | @report first rest => exact .plain (sized_reporting rest) (by simp) (by simp)
  | _ => exact .plain trivial (by simp) (by simp)

/-- Where the act of a step stored a message that is not complete. -/
theorem perform_stored {s : State} {actor : Actor} {act : Act} {channel : UInt32} {p : Partial}
    (h : (s.perform actor act).partials channel = some p) :
    s.partials channel = some p ∨ act = .setPartial channel (some p) := by
  cases act with
  | setPartial c q =>
      change Function.update s.partials c q channel = some p at h
      rw [Function.update_apply] at h
      split at h
      · rename_i heq
        exact .inr (by rw [heq, h])
      · exact .inl h
  | _ => exact .inl h

/-- A worker that was not there before was spawned for a message that a
reader had ready. -/
theorem Step.accepted {s t : State} {e : Event} (h : Step s e t) {r : RequestId} {w : Worker}
    (hnone : s.workers[r]? = none) (hw : t.workers[r]? = some w) :
    r = s.workers.length ∧ ∃ u ok n, e = .hid u ok ∧ s.busy = none ∧
      w = {channel := w.channel, number := n, data := w.data} ∧
      s.hid u = .accept w.channel n w.data ∧
      t = (s.perform (.hid u) (.accept w)).setHid u .idle := by
  have hbeyond := List.getElem?_eq_none_iff.mp hnone
  have hlength (heq : t.workers.length = s.workers.length) : False :=
    Nat.lt_irrefl _ (Nat.lt_of_lt_of_le (heq ▸ (List.getElem?_eq_some_iff.mp hw).1) hbeyond)
  cases h with
  | worker hold hturn =>
      refine (hlength ?_).elim
      rw [setWorker_workers, List.length_set, (turn_own hturn).workers]
  | @hid u ok pc act hturn =>
      generalize hu : s.hid u = before at hturn
      cases hturn with
      | quiet _ _ hact => exact (hlength (by rw [setHid_workers, hact.workers])).elim
      | cancel => exact (hlength rfl).elim
      | abandon => exact (hlength rfl).elim
      | lock => exact (hlength (List.length_modify ..)).elim
      | withdraw => exact (hlength rfl).elim
      | withdrawn => exact (hlength (List.length_modify ..)).elim
      | @accept channel n data hbusy =>
          change (s.workers ++ [_])[r]? = some w at hw
          rw [List.getElem?_append_right hbeyond] at hw
          rw [List.getElem?_singleton] at hw
          obtain ⟨hr, heq⟩ := Option.ite_none_right_eq_some.mp hw
          obtain rfl := Option.some.inj heq
          have hle := Nat.sub_eq_zero_iff_le.mp hr
          exact ⟨Nat.le_antisymm hle hbeyond, u, ok, n, rfl, hbusy, rfl, hu, rfl⟩
  | begin => exact (hlength rfl).elim
  | outside hout => exact (hlength (by rw [hout.workers])).elim

theorem Sized.step {s t : State} {e : Event} (h : Sized s) (hstep : Step s e t) : Sized t where
  partials channel p hp := by
    cases hstep with
    | @worker q _ _ _ act hw hturn =>
        rcases @perform_stored s (.worker q) act channel p hp with hold | rfl
        · exact h.partials channel p hold
        · cases turn_own hturn
    | @hid u _ _ act hturn hrun =>
        rcases @perform_stored s (.hid u) act channel p hp with hold | hact
        · exact h.partials channel p hold
        · exact (hidTurn_sized h (h.hid _) hrun).stored channel p hact
    | begin => exact h.partials channel p hp
    | outside hout => exact h.partials channel p (hout.partials ▸ hp)
  hid u := by
    cases hstep with
    | worker =>
        rw [setWorker_hid, perform_hid]
        exact h.hid u
    | hid hturn hrun =>
        rw [setHid_hid, perform_hid]
        split
        · exact (hidTurn_sized h (h.hid _) hrun).pc
        · exact h.hid u
    | begin hidle hpc =>
        rw [setHid_hid]
        split
        · rcases hpc with ⟨bytes, -, rfl⟩ | ⟨-, rfl⟩
          · exact sized_packet bytes
          · trivial
        · exact h.hid u
    | outside hout => exact hout.hid ▸ h.hid u
  worker r w hw := by
    cases hold : s.workers[r]? with
    | some v =>
        obtain ⟨w', hw', hsame⟩ := hstep.request hold
        obtain rfl := Option.some.inj (hw'.symm.trans hw)
        exact hsame.data ▸ h.worker r v hold
    | none =>
        obtain ⟨-, u, -, n, -, -, -, hu, -⟩ := hstep.accepted hold hw
        have hsized := h.hid u
        rw [hu] at hsized
        exact hsized

theorem sized_reachable {pid : UInt32} {s : State} (h : Reach next always (start pid) s) :
    Sized s :=
  h.invariant (sized_start pid) fun _ _ _ hs _ hnext => hs.step (step_cases hnext)

/-! ### The numbers -/

/-- How many numbers were given out. -/
def taken (log : List Entry) : Nat :=
  log.countP fun e => match e.act with
    | .takeNumber => true
    | _ => false

def HidPc.holding : HidPc → Option UInt32
  | .accept _ n _ => some n
  | _ => none

/-- The number that a thread has for its request. -/
def State.held (s : State) : Actor → Option UInt32
  | .hid u => (s.hid u).holding
  | .worker r => s.workers[r]?.map (·.number)

/-- As long as the counter did not wrap around, each number was given out at
most once. -/
structure Numbered (s : State) : Prop where
  next : s.nextRequest = UInt32.ofNat (taken s.log + 1)
  given : taken s.log < 2 ^ 32 → ∀ a n, s.held a = some n → 0 < n.toNat ∧ n.toNat ≤ taken s.log
  once : taken s.log < 2 ^ 32 → ∀ a b n, s.held a = some n → s.held b = some n → a = b

/-- What a step does to the numbers: the threads keep theirs, a message takes
its number from its reader to its worker, or a reader gets a new one. -/
inductive NumberStep (s t : State) : Prop where
  | kept (source : Actor → Actor) (hinjective : Function.Injective source)
      (hheld : ∀ a n, t.held a = some n → s.held (source a) = some n)
      (htaken : taken t.log = taken s.log) (hnext : t.nextRequest = s.nextRequest)
  | fresh (u : ThreadId) (hu : t.held (.hid u) = some s.nextRequest)
      (hheld : ∀ a, a ≠ .hid u → t.held a = s.held a) (htaken : taken t.log = taken s.log + 1)
      (hnext : t.nextRequest = s.nextRequest + 1)

theorem numbered_start (pid : UInt32) : Numbered (start pid) where
  next := rfl
  given _ a n hn := by cases a <;> simp [start, State.held, HidPc.holding] at hn
  once _ a b n hn := by cases a <;> simp [start, State.held, HidPc.holding] at hn

theorem Numbered.step {s t : State} (h : Numbered s) (hstep : NumberStep s t) : Numbered t := by
  cases hstep with
  | kept source hinjective hheld htaken hnext =>
      refine ⟨by rw [hnext, htaken, h.next], ?_, ?_⟩
      · intro hfew a n hn
        rw [htaken] at hfew ⊢
        exact h.given hfew _ n (hheld a n hn)
      · intro hfew a b n ha hb
        rw [htaken] at hfew
        exact hinjective (h.once hfew _ _ n (hheld a n ha) (hheld b n hb))
  | fresh u hu hheld htaken hnext =>
      have hnumber (hfew : taken t.log < 2 ^ 32) : s.nextRequest.toNat = taken t.log := by
        rw [h.next, htaken]
        exact Nat.mod_eq_of_lt (htaken ▸ hfew)
      have hold (hfew : taken t.log < 2 ^ 32) {a : Actor} {n : UInt32} (ha : a ≠ .hid u)
          (hn : t.held a = some n) : 0 < n.toNat ∧ n.toNat < taken t.log := by
        have hgiven := h.given (by omega) a n (hheld a ha ▸ hn)
        exact ⟨hgiven.1, by omega⟩
      refine ⟨?_, fun hfew a n hn => ?_, fun hfew a b n ha hb => ?_⟩
      · rw [hnext, h.next, htaken]
        exact (UInt32.ofNat_add ..).symm
      · by_cases hau : a = .hid u
        · subst hau
          obtain rfl := Option.some.inj (hu.symm.trans hn)
          rw [hnumber hfew]
          omega
        · have hbounds := hold hfew hau hn
          omega
      · have hlt {a b : Actor} (hau : a = .hid u) (hbu : b ≠ .hid u) (ha : t.held a = some n)
            (hb : t.held b = some n) : False := by
          subst hau
          obtain rfl := Option.some.inj (hu.symm.trans ha)
          have hbounds := hold hfew hbu hb
          rw [hnumber hfew] at hbounds
          omega
        by_cases hau : a = .hid u
        · by_cases hbu : b = .hid u
          · rw [hau, hbu]
          · exact (hlt hau hbu ha hb).elim
        · by_cases hbu : b = .hid u
          · exact (hlt hbu hau hb ha).elim
          · refine h.once (by omega) a b n (hheld a hau ▸ ha) (hheld b hbu ▸ hb)

theorem taken_snoc (log : List Entry) (e : Entry) (h : e.act ≠ .takeNumber) :
    taken (log ++ [e]) = taken log := by
  rw [taken, List.countP_append, List.countP_singleton, if_neg]
  · rfl
  · split
    · exact fun _ => h ‹_›
    · simp

/-- Where a step keeps the counter, every thread has the number it had. -/
theorem NumberStep.same {s t : State} (hhid : ∀ u n, (t.hid u).holding = some n →
      (s.hid u).holding = some n)
    (hworkers : ∀ (r : RequestId) (w : Worker), t.workers[r]? = some w →
      ∃ v, s.workers[r]? = some v ∧ v.number = w.number)
    (htaken : taken t.log = taken s.log) (hnext : t.nextRequest = s.nextRequest) :
    NumberStep s t := by
  refine .kept id Function.injective_id (fun a n hn => ?_) htaken hnext
  cases a with
  | hid u => exact hhid u n hn
  | worker r =>
      obtain ⟨w, hw, rfl⟩ := Option.map_eq_some_iff.mp hn
      obtain ⟨v, hv, hsame⟩ := hworkers r w hw
      exact Option.map_eq_some_iff.mpr ⟨v, hv, hsame⟩

theorem holding_next (cause : Cause) : cause.next.holding = none := by
  cases cause <;> rfl

theorem holding_dispatch (s : State) (channel : UInt32) (command : UInt8) (data : Bytes) :
    (s.dispatch channel command data).holding = none := by
  unfold State.dispatch
  repeat' split
  all_goals rfl

theorem holding_packet (bytes : Bytes) : (packet bytes).holding = none := by
  unfold packet initPacket
  repeat' split
  all_goals rfl

/-- A reader takes a number when its message is ready, and does not keep it
for longer than a step. -/
theorem hidTurn_holding {s : State} {ok : Bool} {pc pc' : HidPc} {act : Act}
    (h : pc.turn s ok = some (pc', act)) :
    (act = .takeNumber ∧ pc'.holding = some s.nextRequest) ∨
      act ≠ .takeNumber ∧ pc'.holding = none := by
  cases hidStep_cases h with
  | number => exact .inl ⟨rfl, rfl⟩
  | unmatched | withdrawn => exact .inr ⟨by simp, holding_next _⟩
  | dispatch => exact .inr ⟨by simp, holding_dispatch ..⟩
  | @report first rest =>
      refine .inr ⟨by simp, ?_⟩
      cases rest <;> rfl
  | _ => exact .inr ⟨by simp, rfl⟩

theorem perform_nextRequest {s : State} {actor : Actor} {act : Act} (h : act ≠ .takeNumber) :
    (s.perform actor act).nextRequest = s.nextRequest := by
  cases act with
  | takeNumber => exact absurd rfl h
  | _ => rfl

/-- The worker that is spawned has the number that its reader had. -/
theorem numberStep_accept {s : State} {u : ThreadId} {w : Worker}
    (hu : (s.hid u).holding = some w.number) :
    NumberStep s ((s.perform (.hid u) (.accept w)).setHid u .idle) := by
  refine .kept (Equiv.swap (.hid u) (.worker s.workers.length)) (Equiv.injective _)
    (fun a n hn => ?_) (taken_snoc _ _ (by simp)) rfl
  cases a with
  | hid v =>
      change ((s.setHid u .idle).hid v).holding = some n at hn
      rw [setHid_hid] at hn
      split at hn
      · cases hn
      · rename_i hne
        rw [Equiv.swap_apply_of_ne_of_ne (by simpa using hne) (by simp)]
        exact hn
  | worker r =>
      change ((s.workers ++ [w])[r]?).map (·.number) = some n at hn
      by_cases hr : r = s.workers.length
      · subst hr
        rw [List.getElem?_concat_length] at hn
        rw [Equiv.swap_apply_right]
        exact hu.trans hn
      · have hlt : r < s.workers.length := by
          obtain ⟨v, hv, -⟩ := Option.map_eq_some_iff.mp hn
          have hbound := (List.getElem?_eq_some_iff.mp hv).1
          rw [List.length_append, List.length_singleton] at hbound
          exact Nat.lt_of_le_of_ne (Nat.lt_succ_iff.mp hbound) hr
        rw [List.getElem?_append_left hlt] at hn
        rw [Equiv.swap_apply_of_ne_of_ne (by simp) (by simpa using hr)]
        exact hn

/-- Only a step that is logged moves the counter. -/
theorem next_counter {s t : State} {e : Event} (h : next s e = some t) (hlog : t.log = s.log) :
    t.nextRequest = s.nextRequest := by
  have hgrown {x : Entry} (hlog : s.log ++ [x] = s.log) : False := by simp at hlog
  cases e with
  | hid u ok =>
      obtain ⟨⟨pc, act⟩, -, rfl⟩ := Option.map_eq_some_iff.mp h
      exact (hgrown hlog).elim
  | worker r ok =>
      obtain ⟨⟨w, act⟩, -, rfl⟩ := Option.map_eq_some_iff.mp h
      exact (hgrown hlog).elim
  | readLink l =>
      obtain ⟨-, heq⟩ := Option.ite_none_right_eq_some.mp h
      obtain ⟨k, -, rfl⟩ := Option.map_eq_some_iff.mp heq
      rfl
  | ping l ok | remove l =>
      obtain ⟨-, heq⟩ := Option.ite_none_left_eq_some.mp h
      cases heq
      rfl
  | packet u bytes | uhidClose u | stall l passing owed | close l | receive l bytes | endRead l =>
      obtain ⟨-, heq⟩ := Option.ite_none_right_eq_some.mp h
      cases heq
      rfl
  | connect device priority | choose device | tick ms =>
      cases h
      rfl

theorem Step.number {s t : State} {e : Event} (h : Step s e t)
    (hcounter : t.log = s.log → t.nextRequest = s.nextRequest) : NumberStep s t := by
  have hworkers (hlength : t.workers.length = s.workers.length) (r : RequestId) (w : Worker)
      (hw : t.workers[r]? = some w) : ∃ v, s.workers[r]? = some v ∧ v.number = w.number := by
    have hlt : r < s.workers.length := hlength ▸ (List.getElem?_eq_some_iff.mp hw).1
    obtain ⟨w', hw', hsame⟩ := h.request (List.getElem?_eq_getElem hlt)
    obtain rfl := Option.some.inj (hw'.symm.trans hw)
    exact ⟨_, List.getElem?_eq_getElem hlt, hsame.number.symm⟩
  cases h with
  | @worker r ok w w' act hw hturn =>
      have hown := turn_own hturn
      have hact : act ≠ .takeNumber := by
        rintro rfl
        cases hown
      refine .same (fun u n hn => ?_) (hworkers ?_) (taken_snoc _ _ hact)
        (@perform_nextRequest s (.worker r) act hact)
      · rwa [setWorker_hid, perform_hid] at hn
      · rw [setWorker_workers, List.length_set, hown.workers]
  | @hid u ok pc act hturn hrun =>
      have hholding := hidTurn_holding hrun
      have hothers (n : UInt32) (v : ThreadId) (hpc : pc.holding = none)
          (hn : (((s.perform (.hid u) act).setHid u pc).hid v).holding = some n) :
          (s.hid v).holding = some n := by
        rw [setHid_hid] at hn
        split at hn
        · simp [hpc] at hn
        · exact perform_hid ▸ hn
      rcases hholding with ⟨rfl, hpc⟩ | ⟨hact, hpc⟩
      · refine .fresh u ?_ (fun a ha => ?_) ?_ rfl
        · change ((s.setHid u pc).hid u).holding = _
          rw [setHid_hid, if_pos rfl, hpc]
        · cases a with
          | hid v =>
              change ((s.setHid u pc).hid v).holding = _
              rw [setHid_hid, if_neg (by simpa using ha)]
              rfl
          | worker r => rfl
        · simp [taken, State.setHid, List.countP_append]
      · generalize hu : s.hid u = before at hturn
        have hsame (hlength : ((s.perform (.hid u) act).setHid u pc).workers.length =
            s.workers.length) : NumberStep s ((s.perform (.hid u) act).setHid u pc) :=
          .same (fun v n hn => hothers n v hpc hn) (hworkers hlength) (taken_snoc _ _ hact)
            (@perform_nextRequest s (.hid u) act hact)
        cases hturn with
        | quiet _ _ hquiet => exact hsame (by rw [setHid_workers, hquiet.workers])
        | accept => exact numberStep_accept (by rw [hu]; rfl)
        | lock => exact hsame (List.length_modify ..)
        | withdrawn => exact hsame (List.length_modify ..)
        | _ => exact hsame rfl
  | @begin _ u pc hidle hpc =>
      refine .same (fun v n hn => ?_) (hworkers rfl) rfl rfl
      rw [setHid_hid] at hn
      split at hn
      · rcases hpc with ⟨bytes, -, rfl⟩ | ⟨-, rfl⟩
        · simp [holding_packet] at hn
        · cases hn
      · exact hn
  | outside hout =>
      refine .same (fun v n hn => hout.hid ▸ hn) (hworkers (by rw [hout.workers]))
        (by rw [hout.log])
        (hcounter hout.log)

theorem numbered_reachable {pid : UInt32} {s : State} (h : Reach next always (start pid) s) :
    Numbered s :=
  h.invariant (numbered_start pid)
    fun _ _ _ hs _ hnext => hs.step ((step_cases hnext).number (next_counter hnext))

end Passkey.Daemon
