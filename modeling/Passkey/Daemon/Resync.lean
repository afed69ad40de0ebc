import Passkey.Daemon.Replies

/-!
Reports of a request after an INIT on its channel. A worker tests whether its
request is current in one step and writes in later ones, so what it has tested
for can follow the reply to the INIT.
-/

namespace Passkey.Daemon

open Library

/-- A report that a reader writes and that starts so is the reply to an INIT. -/
def isInitReply (channel : UInt32) (report : Bytes) : Bool :=
  report.take 5 = channelBytes channel ++ [INIT]

theorem take_sendReport {header : Bytes} (h : header.length = 5) {rest : Bytes} :
    (sendReport (header ++ rest)).take 5 = header := by
  have hlong : 5 ≤ ((header ++ rest).take 64).length := by
    rw [List.length_take, List.length_append]
    omega
  rw [sendReport, List.take_append_of_le_length hlong, List.take_take, ← h]
  exact List.take_left' (by omega)

theorem initReply_isInitReply {channel assigned : UInt32} {nonce report : Bytes}
    (h : initReply channel nonce assigned = [report]) : isInitReply channel report = true := by
  obtain ⟨rfl, -⟩ := List.cons.inj h
  have hlength : (channelBytes channel ++ [INIT]).length = 5 := by simp [channelBytes]
  refine decide_eq_true ?_
  rw [List.append_assoc, List.cons_append, ← List.singleton_append, ← List.append_assoc]
  exact take_sendReport hlength

def Entry.initReply (channel : UInt32) (e : Entry) : Bool :=
  match e.actor, e.act with
  | .hid _, .report report => isInitReply channel report
  | _, _ => false

/-- The thread is in the section of `cancel` for an INIT on the channel. -/
def State.initiating (s : State) (u : ThreadId) (channel : UInt32) : Prop :=
  ∃ p, s.hid u = .cancel (some channel) (.init channel p)

/-- Once the reply to an INIT on the channel is written, no report of the
request follows. -/
def Resynced (channel : UInt32) (r : RequestId) (history : List Entry) : Prop :=
  ∀ before e after, history = before ++ e :: after → e.initReply channel = true →
    reportsOf r after = []

/-- Requests that were accepted on a channel before an INIT write nothing after
its reply. -/
def InitLaw (s t u : State) (channel : UInt32) : Prop :=
  ∀ (r : RequestId) (w : Worker), s.workers[r]? = some w → w.channel = channel →
    ∀ history, u.log = t.log ++ history → Resynced channel r history

/-- The worker has tested whether its request is current, and the report that
it may write for that is to come. -/
def Worker.tested (w : Worker) : Bool :=
  match w.pc with
  | .sweep _ heard => !heard
  | .beat | .report (_ :: _) => true
  | _ => false

/-- What the thread writes in its next step. -/
def HidPc.writes : HidPc → Option Bytes
  | .report (first :: _) => some first
  | _ => none

/-- When the reply to an INIT is written, no request of its channel but the
busy one is between its test and a report. -/
def Drained (s : State) (e : Event) : Prop :=
  match e with
  | .hid u _ => ∀ report ∈ (s.hid u).writes, ∀ x ∈ s.workers.zipIdx,
      isInitReply x.1.channel report → x.1.tested → s.busy = some x.2
  | _ => True

instance (s : State) (e : Event) : Decidable (Drained s e) :=
  match e with
  | .hid u _ => inferInstanceAs (Decidable (∀ report ∈ (s.hid u).writes,
      ∀ x ∈ s.workers.zipIdx, isInitReply x.1.channel report → x.1.tested → s.busy = some x.2))
  | .packet .. | .uhidClose _ | .worker .. | .ping .. | .stall .. | .connect .. | .close _
  | .remove _ | .receive .. | .readLink _ | .endRead _ | .choose _ | .tick _ => .isTrue trivial

/-! ### The invariant -/

theorem poll_tested {w : Worker} {l : LinkId} {rest : List LinkId} {heard : Bool}
    (response : UInt32 × Bytes) : (w.poll l rest heard (some response)).tested = false := by
  obtain ⟨number, payload⟩ := response
  simp only [Worker.poll]
  repeat' split
  all_goals rfl

theorem judge_tested (w : Worker) (device : LinkId → Text) :
    (w.judge device).1.tested = false := by
  unfold Worker.judge
  repeat' split
  all_goals rfl

/-- Only the busy request comes to have tested, and only one that has tested
writes a report. -/
theorem turn_tested {s : State} {r : RequestId} {w w' : Worker} {act : Act}
    (h : Turn s r w w' act) (hbusy : s.busy ≠ some r) :
    (w'.tested = true → w.tested = true) ∧ ∀ bytes, act = .report bytes → w.tested = true := by
  have hpass {P : Prop} : ∀ bytes, Act.pass = .report bytes → P := fun _ hact => by cases hact
  cases h with
  | goOn _ _ _ _ hcurrent => exact absurd hcurrent hbusy
  | current _ hcurrent => exact absurd hcurrent hbusy
  | @swept heard hpc =>
      refine ⟨fun hafter => ?_, hpass⟩
      cases heard with
      | false => simp [Worker.tested, hpc]
      | true => cases hafter
  | silence hpc =>
      refine ⟨fun hafter => ?_, hpass⟩
      simpa [Worker.tested, hpc] using hafter
  | take =>
      refine ⟨fun hafter => ?_, fun _ hact => by cases hact⟩
      rw [poll_tested] at hafter
      cases hafter
  | beat hpc =>
      have hbefore : w.tested = true := by simp [Worker.tested, hpc]
      exact ⟨fun _ => hbefore, fun _ _ => hbefore⟩
  | judge =>
      refine ⟨fun hafter => ?_, fun _ hact => absurd hact (judge_ne_report _)⟩
      rw [judge_tested] at hafter
      cases hafter
  | report hpc =>
      have hbefore : w.tested = true := by simp [Worker.tested, hpc]
      exact ⟨fun _ => hbefore, fun _ _ => hbefore⟩
  | emptyRound hpc =>
      refine ⟨fun hafter => ?_, hpass⟩
      simp [Worker.tested, hpc] at hafter
  | _ =>
      refine ⟨fun hafter => ?_, fun _ hact => ?_⟩
      · cases hafter
      · cases hact

/-- The request lost the slot, and since the reply to the INIT it has nothing
to write. -/
structure Left (channel : UInt32) (r : RequestId) (s u : State) (history : List Entry) : Prop where
  log : u.log = s.log ++ history
  free : u.busy ≠ some r
  worker : ∃ w, u.workers[r]? = some w ∧ w.channel = channel ∧
    ((∃ e ∈ history, e.initReply channel = true) → w.tested = false)
  resynced : Resynced channel r history

theorem Resynced.quiet {channel : UInt32} {r : RequestId} {history : List Entry} {x : Entry}
    (h : Resynced channel r history) (hx : x.reportOf r = none) :
    Resynced channel r (history ++ [x]) := by
  intro before e after hsplit he
  rcases List.eq_nil_or_concat after with rfl | ⟨rest, last, rfl⟩
  · rfl
  · have hsplit' : history ++ [x] = (before ++ e :: rest) ++ [last] := by
      rw [hsplit, List.append_assoc, List.cons_append, List.concat_eq_append]
    obtain ⟨hbefore, hlast⟩ := List.append_inj' hsplit' rfl
    rw [List.concat_eq_append, reportsOf_append, h before e rest hbefore he,
      ← List.singleton_inj.mp hlast]
    simp [reportsOf, hx]

theorem Resynced.none {channel : UInt32} {r : RequestId} {history : List Entry}
    (h : ∀ e ∈ history, e.initReply channel = false) : Resynced channel r history := by
  intro before e after hsplit he
  rw [h e (by simp [hsplit])] at he
  cases he

/-- The log across a step of another thread. -/
theorem Left.other {channel : UInt32} {r : RequestId} {s u v : State} {history : List Entry}
    {w : Worker} {locked : Bool} (h : Left channel r s u history) (hfree : v.busy ≠ some r)
    (hw : u.workers[r]? = some w) (hw' : v.workers[r]? = some {w with locked := locked})
    (hlog : OthersLog r u v)
    (hreply : ∀ x, v.log = u.log ++ [x] → x.initReply channel = true → w.tested = false) :
    ∃ history, Left channel r s v history := by
  obtain ⟨w₀, hw₀, hchannel, htested⟩ := h.worker
  obtain rfl := Option.some.inj (hw₀.symm.trans hw)
  rcases hlog with hsame | ⟨actor, act, hactor, hlog⟩
  · exact ⟨history, by rw [hsame, h.log], hfree, ⟨_, hw', hchannel, htested⟩, h.resynced⟩
  · refine ⟨history ++ [⟨u.now, actor, act⟩], by rw [hlog, h.log, List.append_assoc], hfree,
      ⟨_, hw', hchannel, ?_⟩, h.resynced.quiet (by simp [Entry.reportOf, hactor])⟩
    rintro ⟨e, hmem, he⟩
    rcases List.mem_append.mp hmem with hold | hnew
    · exact htested ⟨e, hold, he⟩
    · exact hreply _ hlog (List.mem_singleton.mp hnew ▸ he)

theorem Left.own {channel : UInt32} {r : RequestId} {s u : State} {history : List Entry}
    {w w' : Worker} {act : Act} (h : Left channel r s u history) (hw : u.workers[r]? = some w)
    (hw' : ((u.perform (.worker r) act).setWorker r w').workers[r]? = some w')
    (hturn : Turn u r w w' act)
    (hfree : ((u.perform (.worker r) act).setWorker r w').busy ≠ some r) :
    ∃ history, Left channel r s ((u.perform (.worker r) act).setWorker r w') history := by
  obtain ⟨w₀, hw₀, hchannel, htested⟩ := h.worker
  obtain rfl := Option.some.inj (hw₀.symm.trans hw)
  obtain ⟨hafter, hwrites⟩ := turn_tested hturn h.free
  have hnew : Entry.initReply channel ⟨u.now, .worker r, act⟩ = false := rfl
  refine ⟨history ++ [⟨u.now, .worker r, act⟩], ?_, hfree, ⟨w', hw', ?_, ?_⟩, ?_⟩
  · rw [setWorker_log, perform_log, h.log, List.append_assoc]
  · exact (turn_request hturn).channel.trans hchannel
  · rintro ⟨e, hmem, he⟩
    rcases List.mem_append.mp hmem with hold | hlast
    · by_contra hcontra
      rw [htested ⟨e, hold, he⟩] at hafter
      cases hafter (Bool.eq_true_of_not_eq_false hcontra)
    · rw [List.mem_singleton.mp hlast, hnew] at he
      cases he
  · by_cases hreply : ∃ e ∈ history, e.initReply channel = true
    · refine h.resynced.quiet ?_
      have hnone := htested hreply
      cases act with
      | report bytes =>
          rw [hwrites bytes rfl] at hnone
          cases hnone
      | _ => simp [Entry.reportOf]
    · refine .none fun e hmem => ?_
      rcases List.mem_append.mp hmem with hold | hlast
      · exact Bool.eq_false_of_not_eq_true fun he => hreply ⟨e, hold, he⟩
      · rw [List.mem_singleton.mp hlast, hnew]

theorem hidTurn_writes {s : State} {ok : Bool} {pc pc' : HidPc} {report : Bytes}
    (h : pc.turn s ok = some (pc', .report report)) : pc.writes = some report := by
  cases hidStep_cases h with
  | report => rfl

/-- The reply to an INIT is written by a thread that is about to write it. -/
theorem next_initReply {s t : State} {e : Event} {channel : UInt32} {x : Entry}
    (hnext : next s e = some t) (hlog : t.log = s.log ++ [x]) (hx : x.initReply channel = true) :
    ∃ u ok report, e = .hid u ok ∧ (s.hid u).writes = some report ∧
      isInitReply channel report = true := by
  cases step_cases hnext with
  | worker =>
      obtain rfl := List.singleton_inj.mp (List.append_cancel_left hlog)
      cases hx
  | @hid u ok =>
      obtain ⟨⟨pc, act⟩, hturn, ht⟩ := Option.map_eq_some_iff.mp hnext
      rw [← ht] at hlog
      obtain rfl := List.singleton_inj.mp (List.append_cancel_left hlog)
      cases act with
      | report report => exact ⟨u, ok, report, rfl, hidTurn_writes hturn, hx⟩
      | _ => cases hx
  | begin => simp at hlog
  | outside hout => simp [hout.log] at hlog

/-- The log only grows. -/
theorem log_run {ok : State → Event → Prop} {s t : State} (h : Reach next ok s t) :
    ∃ history, t.log = s.log ++ history := by
  refine h.invariant (I := fun u => ∃ history, u.log = s.log ++ history) ⟨[], by simp⟩ ?_
  rintro u e v ⟨history, hu⟩ - hnext
  obtain ⟨more, hv⟩ := (step_cases hnext).log
  exact ⟨history ++ more, by rw [hv, hu, List.append_assoc]⟩

theorem Left.step {channel : UInt32} {r : RequestId} {s u v : State} {e : Event}
    {history : List Entry} (h : Left channel r s u history) (hok : Drained u e)
    (hnext : next u e = some v) : ∃ history, Left channel r s v history := by
  have hstep := step_cases hnext
  obtain ⟨w, hw, hchannel, -⟩ := h.worker
  have hfree := hstep.slot.stays_free (List.getElem?_eq_some_iff.mp hw).1 h.free
  obtain ⟨w', hw', ⟨ok, act, -, hturn, rfl⟩ | ⟨locked, rfl, hlog⟩⟩ := hstep.after hw
  · exact h.own hw hw' hturn hfree
  · refine h.other hfree hw hw' hlog fun x hx hreply => ?_
    obtain ⟨t, ok, report, rfl, hwrites, hinit⟩ := next_initReply hnext hx hreply
    by_contra htested
    refine h.free (hok report hwrites (w, r) ?_ ?_ ?_)
    · exact List.mem_zipIdx_iff_getElem?.mpr hw
    · exact hchannel ▸ hinit
    · exact Bool.eq_true_of_not_eq_false htested

/-- The INIT takes the slot from the request of its channel. -/
theorem initiated {s t : State} {u : ThreadId} {ok : Bool} {channel : UInt32}
    (hinit : s.initiating u channel) (hnext : next s (.hid u ok) = some t) {r : RequestId}
    {w : Worker} (hw : s.workers[r]? = some w) (hchannel : w.channel = channel) :
    Left channel r t t [] := by
  obtain ⟨p, hp⟩ := hinit
  obtain ⟨⟨pc, act⟩, hturn, rfl⟩ := Option.map_eq_some_iff.mp hnext
  rw [hp] at hturn
  have hbegin : s.beginCancel (some channel) (.init channel p) = (pc, act) := Option.some.inj hturn
  have hworkers : ((s.perform (.hid u) act).setHid u pc).workers = s.workers ∧
      ((s.perform (.hid u) act).setHid u pc).busy ≠ some r := by
    unfold State.beginCancel at hbegin
    split at hbegin
    · rename_i hfree
      cases hbegin
      exact ⟨rfl, by simp [State.perform, State.effect, hfree]⟩
    · rename_i q hbusy
      split at hbegin
      · rename_i hnone
        cases hbegin
        refine ⟨rfl, fun hr => ?_⟩
        obtain rfl := Option.some.inj (hbusy.symm.trans hr)
        rw [hw] at hnone
        cases hnone
      · rename_i v hv
        obtain ⟨rfl, rfl⟩ := Prod.mk.inj hbegin
        split
        · exact ⟨rfl, by simp [State.perform, State.effect]⟩
        · rename_i hother
          refine ⟨rfl, fun hr => hother ?_⟩
          obtain rfl := Option.some.inj (hbusy.symm.trans hr)
          obtain rfl := Option.some.inj (hv.symm.trans hw)
          simp [Cause.abandons, hchannel]
  refine ⟨by simp, hworkers.2, ⟨w, hworkers.1 ▸ hw, hchannel, ?_⟩, .none (by simp)⟩
  rintro ⟨e, hmem, -⟩
  cases hmem

/-- In every run from an INIT on in which the tests and reports of its channel
are drained when the reply is written, no report of an earlier request follows
the reply. -/
theorem init_resyncs {s t u : State} {thread : ThreadId} {ok : Bool} {channel : UInt32}
    (hinit : s.initiating thread channel) (hnext : next s (.hid thread ok) = some t)
    (hrun : Reach next Drained t u) : InitLaw s t u channel := by
  intro r w hw hchannel history hlog
  obtain ⟨found, hleft⟩ : ∃ history, Left channel r t u history :=
    hrun.invariant (I := fun v => ∃ history, Left channel r t v history)
      ⟨[], initiated hinit hnext hw hchannel⟩ fun v e v' ⟨_, hv⟩ hok hstep => hv.step hok hstep
  rw [hleft.log] at hlog
  exact List.append_cancel_left hlog ▸ hleft.resynced

/-- A request on channel 1 has been sent to the one phone, and its worker has
taken `steps` more steps when an INIT on channel 1 comes to `cancel`. -/
def initEvents (steps : Nat) : List Event :=
  List.flatten [[.connect "a".toList 0, .packet 0 [0, 0, 0, 1, CBOR, 0, 1, 1]],
    List.replicate 6 (.hid 0 true), List.replicate (6 + steps) (.worker 0 true),
    [.packet 0 [0, 0, 0, 1, INIT, 0, 8, 1, 2, 3, 4, 5, 6, 7, 8], .hid 0 true]]

/-- Where the thread is, the channels of the requests, and what follows the
section of `cancel`, in its end with the reply to the INIT. -/
def initFacts (s t u : State) : Bool × List UInt32 × List (Bool × Option Bytes) :=
  (match s.hid 0 with
    | .cancel (some channel) (.init c _) => channel = 1 && c = 1
    | _ => false,
    s.workers.map (·.channel),
    (u.log.drop (t.log.length + 6)).map fun e => (e.initReply 1, e.reportOf 0))

theorem initiating_of_facts {s t u : State} {channels : List UInt32}
    {rest : List (Bool × Option Bytes)} (h : initFacts s t u = (true, channels, rest)) :
    s.initiating 0 1 := by
  obtain ⟨hcancel, -⟩ := Prod.mk.inj h
  split at hcancel
  · rename_i channel c p hu
    simp only [Bool.and_eq_true, decide_eq_true_eq] at hcancel
    obtain ⟨rfl, rfl⟩ := hcancel
    exact ⟨p, hu⟩
  · cases hcancel

/-- The worker has not tested again when the reply is written, and ends
without a report. -/
theorem init_drained : ∃ s t u, s.initiating 0 1 ∧ next s (.hid 0 true) = some t ∧
    Reach next Drained t u ∧ (∃ e ∈ u.log, e.initReply 1 = true) ∧ InitLaw s t u 1 := by
  have hruns : ((replay next always (start 1) (initEvents 0)).bind fun s =>
      (next s (.hid 0 true)).bind fun t =>
        (replay next Drained t (List.replicate 7 (.hid 0 true) ++
          List.replicate 8 (.worker 0 true))).map (initFacts s t)) =
            some (true, [1], (true, none) :: List.replicate 8 (false, none)) := rfl
  obtain ⟨s, -, hrest⟩ := Option.bind_eq_some_iff.mp hruns
  obtain ⟨t, hstep, hrest⟩ := Option.bind_eq_some_iff.mp hrest
  obtain ⟨u, hrun, hfacts⟩ := Option.map_eq_some_iff.mp hrest
  have hinit := initiating_of_facts hfacts
  have hreach := reach_of_replay hrun
  refine ⟨s, t, u, hinit, hstep, hreach, ?_, init_resyncs hinit hstep hreach⟩
  have hmem : (true, none) ∈
      (u.log.drop (t.log.length + 6)).map fun e => (e.initReply 1, e.reportOf 0) := by
    rw [(Prod.mk.inj (Prod.mk.inj hfacts).2).2]
    exact List.mem_cons_self
  obtain ⟨e, he, heq⟩ := List.mem_map.mp hmem
  exact ⟨e, List.mem_of_mem_drop he, (Prod.mk.inj heq).1⟩

/-! ### A KEEPALIVE follows the reply to an INIT -/

theorem stale_keepalive : ∃ s t u, Reach next always (start 1) s ∧ s.initiating 0 1 ∧
    next s (.hid 0 true) = some t ∧ Reach next always t u ∧ ¬ InitLaw s t u 1 := by
  have hruns : ((replay next always (start 1) (initEvents 3)).bind fun s =>
      (next s (.hid 0 true)).bind fun t =>
        (replay next always t (List.replicate 7 (.hid 0 true) ++ [.worker 0 true])).map
          (initFacts s t)) = some (true, [1], [(true, none),
            (false, some (sendReport [0, 0, 0, 1, KEEPALIVE, 0, 1, 2]))]) := rfl
  obtain ⟨s, hbefore, hrest⟩ := Option.bind_eq_some_iff.mp hruns
  obtain ⟨t, hstep, hrest⟩ := Option.bind_eq_some_iff.mp hrest
  obtain ⟨u, hrun, hfacts⟩ := Option.map_eq_some_iff.mp hrest
  refine ⟨s, t, u, reach_of_replay hbefore, initiating_of_facts hfacts, hstep,
    reach_of_replay hrun, fun hlaw => ?_⟩
  obtain ⟨hchannels, hlater⟩ := Prod.mk.inj (Prod.mk.inj hfacts).2
  obtain ⟨w, hw, hchannel⟩ : ∃ w, s.workers[0]? = some w ∧ w.channel = 1 := by
    have hfirst := congrArg (·[0]?) hchannels
    simpa using hfirst
  obtain ⟨history, hlog⟩ := log_run (reach_of_replay hrun)
  obtain ⟨x, y, hdrop, hx, hy⟩ : ∃ x y, history.drop 6 = [x, y] ∧ x.initReply 1 = true ∧
      (y.reportOf 0).isSome = true := by
    rw [hlog, List.drop_length_add_append] at hlater
    obtain ⟨x, rest, hdrop, hx, hrest⟩ := List.map_eq_cons_iff.mp hlater
    obtain ⟨y, last, rfl, hy, hlast⟩ := List.map_eq_cons_iff.mp hrest
    obtain rfl := List.map_eq_nil_iff.mp hlast
    refine ⟨x, y, hdrop, (Prod.mk.inj hx).1, ?_⟩
    rw [(Prod.mk.inj hy).2]
    rfl
  have hnone := hlaw 0 w hw hchannel history hlog (history.take 6) x [y]
    (by rw [← hdrop, List.take_append_drop]) hx
  obtain ⟨report, hreport⟩ := Option.isSome_iff_exists.mp hy
  simp [reportsOf, hreport] at hnone

end Passkey.Daemon
